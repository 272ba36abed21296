/-!
Lists without repetition, in the order in which their members were first seen.
-/

set_option autoImplicit false
set_option relaxedAutoImplicit false

namespace ContentImport.Distinct

variable {α : Type} [DecidableEq α]

/-- Put a member at the end, unless the list has it. -/
def add (xs : List α) (x : α) : List α :=
  if x ∈ xs then xs else xs ++ [x]

def addAll (xs ys : List α) : List α :=
  ys.foldl add xs

/-- The members of a list, each at its first place. -/
def ofList (xs : List α) : List α :=
  addAll [] xs

@[simp] theorem mem_add {xs : List α} {x y : α} : y ∈ add xs x ↔ y ∈ xs ∨ y = x := by
  unfold add
  split
  · next held => exact ⟨.inl, fun h => h.elim id (· ▸ held)⟩
  · simp

@[simp] theorem mem_addAll {xs ys : List α} {y : α} : y ∈ addAll xs ys ↔ y ∈ xs ∨ y ∈ ys := by
  unfold addAll
  induction ys generalizing xs with
  | nil => simp
  | cons z zs ih => simp [ih, or_assoc]

@[simp] theorem mem_ofList {xs : List α} {y : α} : y ∈ ofList xs ↔ y ∈ xs := by
  simp [ofList]

theorem add_of_mem {xs : List α} {x : α} (held : x ∈ xs) : add xs x = xs :=
  if_pos held

theorem add_add (xs : List α) (x : α) : add (add xs x) x = add xs x :=
  add_of_mem (mem_add.mpr (.inr rfl))

@[simp] theorem addAll_nil (xs : List α) : addAll xs [] = xs :=
  rfl

theorem addAll_eq_nil_iff {xs ys : List α} : addAll xs ys = [] ↔ xs = [] ∧ ys = [] := by
  simp only [List.eq_nil_iff_forall_not_mem, mem_addAll, not_or, forall_and]

theorem addAll_append (xs ys zs : List α) :
    addAll xs (ys ++ zs) = addAll (addAll xs ys) zs :=
  List.foldl_append

theorem ofList_append (xs ys : List α) : ofList (xs ++ ys) = addAll (ofList xs) ys :=
  addAll_append [] xs ys

theorem addAll_addAll (xs ys zs : List α) :
    addAll xs (addAll ys zs) = addAll (addAll xs ys) zs := by
  induction zs generalizing ys with
  | nil => rfl
  | cons z zs ih =>
    have first : addAll xs (add ys z) = add (addAll xs ys) z := by
      by_cases held : z ∈ ys
      · rw [add_of_mem held, add_of_mem (mem_addAll.mpr (.inr held))]
      · rw [add, if_neg held, addAll_append]
        rfl
    change addAll xs (addAll (add ys z) zs) = addAll (add (addAll xs ys) z) zs
    rw [ih, first]

theorem any_addAll (test : α → Bool) (xs ys : List α) :
    (addAll xs ys).any test = (xs.any test || ys.any test) := by
  rw [Bool.eq_iff_iff]
  simp only [Bool.or_eq_true, List.any_eq_true, mem_addAll, or_and_right, exists_or]

private theorem nodup_add {xs : List α} {x : α} (h : xs.Nodup) : (add xs x).Nodup := by
  unfold add
  split
  · exact h
  · next fresh =>
    rw [List.nodup_append]
    refine ⟨h, by simp, ?_⟩
    intro a ha b hb
    simp only [List.mem_singleton] at hb
    exact fun same => fresh (hb ▸ same ▸ ha)

theorem nodup_addAll {xs ys : List α} (h : xs.Nodup) : (addAll xs ys).Nodup := by
  unfold addAll
  induction ys generalizing xs with
  | nil => exact h
  | cons z zs ih => exact ih (nodup_add h)

theorem filter_add (test : α → Bool) (xs : List α) (x : α) :
    (add xs x).filter test = if test x then add (xs.filter test) x else xs.filter test := by
  unfold add
  by_cases held : x ∈ xs <;> by_cases passes : test x = true <;>
    simp [held, passes, List.filter_append]

theorem filter_addAll (test : α → Bool) (xs ys : List α) :
    (addAll xs ys).filter test = addAll (xs.filter test) (ys.filter test) := by
  unfold addAll
  induction ys generalizing xs with
  | nil => rfl
  | cons y ys ih =>
    rw [List.foldl_cons, ih, filter_add, List.filter_cons]
    split <;> rfl

theorem nodup_ofList (xs : List α) : (ofList xs).Nodup :=
  nodup_addAll List.nodup_nil

end ContentImport.Distinct

import Mathlib.Data.List.Forall2

/-!
Attempts: computations that give a result or fail. An attempt in several parts succeeds exactly when
all its parts do.
-/

set_option autoImplicit false
set_option relaxedAutoImplicit false

namespace ContentImport.Attempt

variable {ε δ α β : Type}

theorem map_eq_ok {x : Except ε α} {f : α → β} {b : β} :
    x.map f = .ok b ↔ ∃ a, x = .ok a ∧ f a = b := by
  cases x <;> simp [Except.map]

theorem mapError_eq_ok {x : Except ε α} {f : ε → δ} {a : α} : x.mapError f = .ok a ↔ x = .ok a := by
  cases x <;> simp [Except.mapError]

theorem bind_eq_ok {x : Except ε α} {f : α → Except ε β} {b : β} :
    x >>= f = .ok b ↔ ∃ a, x = .ok a ∧ f a = .ok b := by
  cases x <;> simp [bind, Except.bind]

theorem exists_of_mem_right {R : α → β → Prop} {xs : List α} {ys : List β}
    (related : List.Forall₂ R xs ys) : ∀ y ∈ ys, ∃ x ∈ xs, R x y := by
  induction related with
  | nil => exact fun y listed => nomatch listed
  | @cons x y xs ys pair _ ih =>
    refine List.forall_mem_cons.mpr ⟨⟨x, List.mem_cons_self, pair⟩, fun other listed => ?_⟩
    obtain ⟨origin, among, related⟩ := ih other listed
    exact ⟨origin, List.mem_cons_of_mem _ among, related⟩

theorem mapM_eq_some {f : α → Option β} {xs : List α} {ys : List β} :
    xs.mapM f = some ys ↔ List.Forall₂ (fun x y => f x = some y) xs ys := by
  induction xs generalizing ys with
  | nil =>
    rw [List.mapM_nil, List.forall₂_nil_left_iff]
    exact ⟨fun same => (Option.some.inj same).symm, fun same => congrArg some same.symm⟩
  | cons x xs ih =>
    rw [List.mapM_cons, Option.bind_eq_bind, Option.bind_eq_some_iff, List.forall₂_cons_left_iff]
    refine exists_congr fun y => ?_
    constructor
    · rintro ⟨made, rest⟩
      obtain ⟨others, madeRest, same⟩ := Option.bind_eq_some_iff.mp rest
      exact ⟨others, made, ih.mp madeRest, (Option.some.inj same).symm⟩
    · rintro ⟨others, made, madeRest, rfl⟩
      exact ⟨made, Option.bind_eq_some_iff.mpr ⟨others, ih.mpr madeRest, rfl⟩⟩

theorem mapM_eq_ok {f : α → Except ε β} {xs : List α} {ys : List β} :
    xs.mapM f = .ok ys ↔ List.Forall₂ (fun x y => f x = .ok y) xs ys := by
  induction xs generalizing ys with
  | nil =>
    rw [List.mapM_nil, List.forall₂_nil_left_iff]
    exact ⟨fun same => (Except.ok.inj same).symm, fun same => congrArg Except.ok same.symm⟩
  | cons x xs ih =>
    rw [List.mapM_cons, bind_eq_ok, List.forall₂_cons_left_iff]
    refine exists_congr fun y => ?_
    constructor
    · rintro ⟨made, rest⟩
      obtain ⟨others, madeRest, same⟩ := bind_eq_ok.mp rest
      exact ⟨others, made, ih.mp madeRest, (Except.ok.inj same).symm⟩
    · rintro ⟨others, made, madeRest, rfl⟩
      exact ⟨made, bind_eq_ok.mpr ⟨others, ih.mpr madeRest, rfl⟩⟩

theorem mapM_cons_ok {f : α → Except ε β} {x : α} {y : β} {xs : List α} {ys : List β}
    (first : f x = .ok y) (rest : xs.mapM f = .ok ys) : (x :: xs).mapM f = .ok (y :: ys) :=
  mapM_eq_ok.mpr (.cons first (mapM_eq_ok.mp rest))

theorem mapM_unique {f : α → Except ε β} {R : α → α → Prop}
    (unique : ∀ ⦃x x' y y'⦄, R x x' → f x = .ok y → f x' = .ok y' → y = y') {xs xs' : List α}
    {ys ys' : List β} (related : List.Forall₂ R xs xs') (made : xs.mapM f = .ok ys)
    (made' : xs'.mapM f = .ok ys') : ys = ys' := by
  rw [mapM_eq_ok] at made made'
  induction related generalizing ys ys' with
  | nil =>
    cases made
    cases made'
    rfl
  | cons first _ ih =>
    cases made with
    | cons given others =>
      cases made' with
      | cons given' others' => rw [unique first given given', ih others others']

end ContentImport.Attempt

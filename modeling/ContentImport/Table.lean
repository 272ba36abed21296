/-!
Tables: lists of key and value in ascending order of the keys. The order is kept by `put`, and what a
table says is its `get?`.
-/

set_option autoImplicit false
set_option relaxedAutoImplicit false

namespace ContentImport

abbrev Table (κ ν : Type) := List (κ × ν)

namespace Table

variable {κ ν : Type}

def get? [DecidableEq κ] (t : Table κ ν) (key : κ) : Option ν :=
  match t with
  | [] => none
  | (k, v) :: rest => if k = key then some v else get? rest key

def holds [DecidableEq κ] (t : Table κ ν) (key : κ) : Bool :=
  (get? t key).isSome

/-- Give a key a value, in place of the one it has. -/
def put [DecidableEq κ] [LT κ] [DecidableLT κ] (key : κ) (value : ν) : Table κ ν → Table κ ν
  | [] => [(key, value)]
  | (k, v) :: rest =>
    if key = k then (key, value) :: rest
    else if key < k then (key, value) :: (k, v) :: rest
    else (k, v) :: put key value rest

/-- Give a key a value that depends on the one it has. -/
def alter [DecidableEq κ] [LT κ] [DecidableLT κ] (t : Table κ ν) (key : κ)
    (change : Option ν → ν) : Table κ ν :=
  put key (change (get? t key)) t

def erase [DecidableEq κ] (t : Table κ ν) (key : κ) : Table κ ν :=
  t.filter (·.1 ≠ key)

def adjust [DecidableEq κ] (t : Table κ ν) (key : κ) (change : ν → ν) : Table κ ν :=
  t.map fun entry => if entry.1 = key then (entry.1, change entry.2) else entry

/-- The table of a list of entries, the last one of a key counting. -/
def ofEntries [DecidableEq κ] [LT κ] [DecidableLT κ] (entries : List (κ × ν)) : Table κ ν :=
  entries.foldl (fun t entry => put entry.1 entry.2 t) []

@[simp] theorem get?_nil [DecidableEq κ] (key : κ) : get? ([] : Table κ ν) key = none :=
  rfl

/-- A key that was put has its new value; every other key keeps its own. -/
theorem get?_put [DecidableEq κ] [LT κ] [DecidableLT κ] (t : Table κ ν) (key other : κ)
    (value : ν) :
    get? (put key value t) other = if key = other then some value else get? t other := by
  induction t with
  | nil => rfl
  | cons entry rest ih =>
    obtain ⟨k, v⟩ := entry
    unfold put
    split
    · next same => subst same; by_cases h : key = other <;> simp [get?, h]
    · next differ =>
      split
      · simp [get?]
      · by_cases h : k = other
        · have : key ≠ other := fun same => differ (same.trans h.symm)
          simp [get?, h, this]
        · simp [get?, h, ih]

theorem get?_alter [DecidableEq κ] [LT κ] [DecidableLT κ] (t : Table κ ν) (key other : κ)
    (change : Option ν → ν) :
    get? (alter t key change) other =
      if key = other then some (change (get? t key)) else get? t other :=
  get?_put t key other _

end Table

end ContentImport

/-!
Tables that keep their keys in the order in which they were first written.
-/

namespace LoopScript

abbrev Table (κ ν : Type) := List (κ × ν)

namespace Table

variable {κ ν : Type} [BEq κ]

def get? : Table κ ν → κ → Option ν
  | [], _ => none
  | (k, v) :: t, key => if k == key then some v else get? t key

/-- A key that is present keeps its place and its first spelling; a new one goes to the end. -/
def put : Table κ ν → κ → ν → Table κ ν
  | [], key, value => [(key, value)]
  | (k, v) :: t, key, value => if k == key then (k, value) :: t else (k, v) :: put t key value

def erase : Table κ ν → κ → Table κ ν
  | [], _ => []
  | (k, v) :: t, key => if k == key then t else (k, v) :: erase t key

def has (t : Table κ ν) (key : κ) : Bool :=
  (t.get? key).isSome

def keys (t : Table κ ν) : List κ :=
  t.map (·.1)

/-- Later entries win over earlier ones. -/
def ofList (entries : List (κ × ν)) : Table κ ν :=
  entries.foldl (fun t (k, v) => t.put k v) []

theorem length_put_le (t : Table κ ν) (key : κ) (value : ν) :
    (t.put key value).length ≤ t.length + 1 := by
  induction t with
  | nil => simp [put]
  | cons e t ih =>
    obtain ⟨k, v⟩ := e
    simp only [put]
    split
    · simp
    · simpa using ih

theorem exists_mem_of_get? {t : Table κ ν} {key : κ} {value : ν} (h : t.get? key = some value) :
    ∃ k, (k, value) ∈ t := by
  induction t with
  | nil => cases h
  | cons e t ih =>
    obtain ⟨k, v⟩ := e
    simp only [get?] at h
    split at h
    · exact ⟨k, Option.some.inj h ▸ List.mem_cons_self⟩
    · obtain ⟨k', hk⟩ := ih h
      exact ⟨k', List.mem_cons_of_mem _ hk⟩

end Table

end LoopScript

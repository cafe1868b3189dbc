import PlaneCalculus.Decimal.Layout

/-!
Documents: the values of JSON. Whole numbers written without point or exponent are kept apart from all other numbers.
-/

namespace PlaneCalculus

inductive Json where
  | null
  | bool (b : Bool)
  | integer (n : Int)
  | real (v : Float)
  | string (s : String)
  | array (items : List Json)
  | object (fields : List (String × Json))

namespace Json

instance : Inhabited Json := ⟨.null⟩

def ofOption {α : Type} (f : α → Json) : Option α → Json
  | some a => f a
  | none => .null

/-- The fields of an object; every other document has none. -/
def fields : Json → List (String × Json)
  | .object fs => fs
  | _ => []

def get? (key : String) : List (String × Json) → Option Json
  | [] => none
  | (k, v) :: rest => if k == key then some v else get? key rest

/-- Sets a field, in place if the key is there already. -/
def put (key : String) (value : Json) : List (String × Json) → List (String × Json)
  | [] => [(key, value)]
  | (k, v) :: rest => if k == key then (k, value) :: rest else (k, v) :: put key value rest

theorem get?_put_self (key : String) (value : Json) (fs : List (String × Json)) :
    get? key (put key value fs) = some value := by
  induction fs with
  | nil => simp [put, get?]
  | cons f rest ih =>
    obtain ⟨k, v⟩ := f
    by_cases h : (k == key) = true <;> simp_all [put, get?]

theorem get?_put_of_ne {key key' : String} (h : key' ≠ key) (value : Json) (fs : List (String × Json)) :
    get? key' (put key value fs) = get? key' fs := by
  induction fs with
  | nil => simp [put, get?, Ne.symm h]
  | cons f rest ih =>
    obtain ⟨k, v⟩ := f
    by_cases hk : k = key
    · subst hk; simp [put, get?, Ne.symm h]
    · simp [put, get?, hk, ih]

end Json

end PlaneCalculus

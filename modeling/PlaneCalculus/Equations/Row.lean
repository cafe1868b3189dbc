/-!
Rows of a linear system, with the exchange of rows that brings a pivot to the front.
-/

namespace PlaneCalculus

/-- One linear equation: the coefficients of the unknowns not yet eliminated, and the right side. -/
structure Row (α : Type) where
  coeffs : List α
  rhs : α

namespace Row

/-- The row at the given position, and the others with the first row in its place. -/
def exchange {α : Type} (i : Nat) : List (Row α) → Option (Row α × List (Row α))
  | [] => none
  | r :: rows =>
    match i with
    | 0 => some (r, rows)
    | i + 1 => rows[i]?.map fun p => (p, rows.set i r)

theorem length_of_exchange {α : Type} {i : Nat} {rows rest : List (Row α)} {p : Row α}
    (h : exchange i rows = some (p, rest)) : rest.length + 1 = rows.length := by
  cases rows with
  | nil => simp [exchange] at h
  | cons r rows =>
    cases i with
    | zero => simp_all [exchange]
    | succ i =>
      simp only [exchange, Option.map_eq_some_iff, Prod.mk.injEq] at h
      obtain ⟨_, _, _, rfl⟩ := h
      simp

end Row

end PlaneCalculus

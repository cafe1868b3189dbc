import PlaneCalculus.Number.Basic

/-!
Arithmetic with a stated policy for results that leave the exact range. A symbolic calculation runs either with
`Overflow.approximate`, where such a result goes over to a double, or with `Overflow.refuse`, where it stops the
calculation. A calculation that succeeds under `refuse` has met no overflow at all.
-/

namespace PlaneCalculus

inductive Overflow where
  | approximate
  | refuse
  deriving DecidableEq, Repr

inductive Halt where
  /-- The calls nest deeper than the depth allotted from the size of the input. -/
  | exhausted
  /-- An operation on exact numbers has an inexact result, under `Overflow.refuse`. -/
  | overflow
  deriving DecidableEq, Repr

abbrev Calc (α : Type) := Except Halt α

namespace Overflow

/-- Passes the result on, unless exact operands gave an inexact one and the policy refuses that. -/
def settle (o : Overflow) (exactOperands : Bool) (result : Number) : Calc Number :=
  if o = .refuse && exactOperands && !result.isExact then .error .overflow else .ok result

def add (o : Overflow) (a b : Number) : Calc Number := o.settle (a.isExact && b.isExact) (a.add b)

def mul (o : Overflow) (a b : Number) : Calc Number := o.settle (a.isExact && b.isExact) (a.mul b)

def sub (o : Overflow) (a b : Number) : Calc Number := do o.add a (← o.mul b (Number.ofInt (-1)))

def div (o : Overflow) (a b : Number) : Calc Number := o.settle (a.isExact && b.isExact) (a.div b)

def neg (o : Overflow) (a : Number) : Calc Number := o.mul a (Number.ofInt (-1))

def abs (o : Overflow) (a : Number) : Calc Number := o.settle a.isExact a.abs

def powInt (o : Overflow) (a : Number) (e : Int) : Calc Number := o.settle a.isExact (a.powInt e)

theorem approximate_settle (b : Bool) (r : Number) : approximate.settle b r = .ok r := by
  simp [settle]

theorem refuse_settle {b : Bool} {r s : Number} (h : refuse.settle b r = .ok s) : s = r ∧ (b = true → r.isExact = true) := by
  unfold settle at h
  split at h
  · cases h
  · next hc => exact ⟨by cases h; rfl, by cases b <;> simp_all⟩

end Overflow

end PlaneCalculus

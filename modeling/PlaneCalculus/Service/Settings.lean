import PlaneCalculus.Decimal.Layout

/-!
Settings of the service and the environment variables that override them. A value that is not a number in range is ignored.
-/

namespace PlaneCalculus

structure Settings where
  host : String := "0.0.0.0"
  tcpPort : Nat := 5000
  /-- Greatest length of a request body in bytes. -/
  maxBody : Nat := 65536
  /-- Greatest length of an expression in bytes. -/
  maxExpression : Nat := 512
  deriving DecidableEq, Repr

namespace Settings

/-- Digits with an optional plus sign, of a value below `bound`. -/
def natural? (bound : Nat) (text : String) : Option Nat :=
  let digits := match text.toList with
    | '+' :: rest => rest
    | cs => cs
  let n := Decimal.natOfDigits digits
  if !digits.isEmpty && digits.all Decimal.isDigit && n < bound then some n else none

/-- Sizes are numbers of 64 bits. -/
def wordLimit : Nat := 18446744073709551616

/-- The number of a TCP socket has 16 bits. -/
def socketLimit : Nat := 65536

/-- The default settings, overridden by the variables that are set. -/
def ofEnvironment (lookup : String → Option String) : Settings :=
  let default : Settings := {}
  let natural (name : String) (bound fallback : Nat) : Nat := ((lookup name).bind (natural? bound)).getD fallback
  { host := (lookup "MULTIVAR_HOST").getD default.host,
    tcpPort := natural "PORT" socketLimit default.tcpPort,
    maxBody := natural "MULTIVAR_MAX_BODY_BYTES" wordLimit default.maxBody,
    maxExpression := natural "MULTIVAR_MAX_EXPRESSION_LEN" wordLimit default.maxExpression }

def address (s : Settings) : String := s.host ++ ":" ++ toString s.tcpPort

end Settings

end PlaneCalculus

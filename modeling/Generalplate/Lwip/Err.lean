import Mathlib.Data.Int.Notation

/-! # Error codes of lwIP

The codes the modelled functions return or test, and which of them are fatal for
a connection. -/
namespace Generalplate.Lwip

/-- `err_t`. -/
inductive ErrT where
  | ok
  | mem
  | timeout
  | abrt
  | rst
  | clsd
  | conn
deriving DecidableEq, Repr

def ErrT.code : ErrT → ℤ
  | .ok => 0
  | .mem => -1
  | .timeout => -3
  | .abrt => -10
  | .rst => -11
  | .clsd => -12
  | .conn => -13

/-- `ERR_ISCONN`, the last code that is not fatal. -/
def errIsconn : ℤ := -9

/-- `ERR_IS_FATAL`. -/
def ErrT.Fatal (e : ErrT) : Prop := e.code < errIsconn

instance (e : ErrT) : Decidable e.Fatal := inferInstanceAs (Decidable (_ < _))

end Generalplate.Lwip

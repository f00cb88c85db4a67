namespace TaggedScript

/-- The binary operators of the language. Each is also the name of a builtin function. -/
inductive Operator where
  | add | sub | mul | div | rem
  | eq | ne
  | lt | le | gt | ge
deriving DecidableEq, Repr

namespace Operator

def symbol : Operator → String
  | add => "+"
  | sub => "-"
  | mul => "*"
  | div => "/"
  | rem => "%"
  | eq => "=="
  | ne => "!="
  | lt => "<"
  | le => "<="
  | gt => ">"
  | ge => ">="

/-- How tightly an operator binds: equalities are loosest, then the orders, then sums,
then products. -/
def precedence : Operator → Nat
  | eq | ne => 0
  | lt | le | gt | ge => 1
  | add | sub => 2
  | mul | div | rem => 3

end Operator
end TaggedScript

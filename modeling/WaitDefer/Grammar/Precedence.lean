import WaitDefer.Tree

/-! How tightly operators bind. -/
namespace WaitDefer

/-- Levels of binding, loosest first. -/
inductive Precedence
  | none | logicalOr | logicalAnd | equality | relational | additive | multiplicative | unary
  deriving DecidableEq, Repr, Inhabited

namespace Precedence

def rank : Precedence → Nat
  | none => 0
  | logicalOr => 1
  | logicalAnd => 2
  | equality => 3
  | relational => 4
  | additive => 5
  | multiplicative => 6
  | unary => 7

/-- The next tighter level; nothing is tighter than a unary operator. -/
def tighter : Precedence → Precedence
  | none => logicalOr
  | logicalOr => logicalAnd
  | logicalAnd => equality
  | equality => relational
  | relational => additive
  | additive => multiplicative
  | multiplicative | unary => unary

end Precedence

namespace BinaryOp

def precedence : BinaryOp → Precedence
  | or => .logicalOr
  | and => .logicalAnd
  | equal | notEqual => .equality
  | less | lessEqual | greater | greaterEqual => .relational
  | add | subtract => .additive
  | multiply | divide | modulo => .multiplicative

end BinaryOp

namespace Symbol

/-- The binary operator a symbol stands for. -/
def binaryOp? : Symbol → Option BinaryOp
  | pipePipe => some .or
  | ampAmp => some .and
  | equalEqual => some .equal
  | bangEqual => some .notEqual
  | less => some .less
  | lessEqual => some .lessEqual
  | greater => some .greater
  | greaterEqual => some .greaterEqual
  | plus => some .add
  | minus => some .subtract
  | star => some .multiply
  | slash => some .divide
  | percent => some .modulo
  | _ => none

end Symbol

namespace Token

/-- The binary operator a token stands for. -/
def binaryOp? : Token → Option BinaryOp
  | sym s => s.binaryOp?
  | _ => none

/-- How tightly a token binds between two operands; `none` if it is no binary operator. -/
def precedence (t : Token) : Precedence :=
  match t.binaryOp? with
  | some op => op.precedence
  | none => .none

end Token

theorem BinaryOp.binaryOp?_symbol (op : BinaryOp) : op.symbol.binaryOp? = some op := by
  cases op <;> rfl

end WaitDefer

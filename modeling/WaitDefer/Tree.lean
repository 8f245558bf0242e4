import WaitDefer.Token

/-! The program as a tree. A module is a list of functions; functions, blocks and statements carry
an id, so that findings about them can be kept beside the tree. -/
namespace WaitDefer

/-- Identity of a function, block or statement. -/
abbrev NodeId := Nat

/-- How messages name a node. -/
def NodeId.text (id : NodeId) : String := "#" ++ toString id

/-- A name as it is written at one place. -/
structure Ident where
  name : String
  span : Span
  deriving DecidableEq, Repr, Inhabited

inductive UnaryOp
  | not | minus
  deriving DecidableEq, Repr, Inhabited

inductive BinaryOp
  | or | and | equal | notEqual | less | lessEqual | greater | greaterEqual
  | add | subtract | multiply | divide | modulo
  deriving DecidableEq, Repr, Inhabited

namespace UnaryOp

def symbol : UnaryOp → Symbol
  | not => .bang
  | minus => .minus

end UnaryOp

namespace BinaryOp

def symbol : BinaryOp → Symbol
  | or => .pipePipe
  | and => .ampAmp
  | equal => .equalEqual
  | notEqual => .bangEqual
  | less => .less
  | lessEqual => .lessEqual
  | greater => .greater
  | greaterEqual => .greaterEqual
  | add => .plus
  | subtract => .minus
  | multiply => .star
  | divide => .slash
  | modulo => .percent

end BinaryOp

/-- The two ways to leave an iteration: end the loop, or begin its next round. -/
inductive JumpKind
  | leave | resume
  deriving DecidableEq, Repr, Inhabited

namespace JumpKind

def keyword : JumpKind → Keyword
  | leave => .break
  | resume => .continue

end JumpKind

mutual

/-- An expression. `defer` makes a callback of the enclosing wait-block, which assigns what it is
called with to the bound names. -/
inductive Expr where
  | int (value : Int) (span : Span)
  | str (value : String) (span : Span)
  | bool (value : Bool) (span : Span)
  | null (span : Span)
  | ident (name : Ident)
  | unary (op : UnaryOp) (operand : Expr) (span : Span)
  | binary (op : BinaryOp) (left right : Expr) (span : Span)
  | call (callee : Expr) (arguments : List Expr) (span : Span)
  | member (object : Expr) (property : Ident) (span : Span)
  | func (function : Func)
  | defer (bindings : List Ident) (span : Span)

/-- A function; only a function expression may have no name. -/
structure Func where
  id : NodeId
  name : Option Ident
  params : List Ident
  body : Block
  span : Span

/-- A sequence of statements. -/
structure Block where
  id : NodeId
  statements : List Statement
  span : Span

structure Statement where
  id : NodeId
  kind : StatementKind
  span : Span

/-- What a statement does. The arms of a switch never fall through. -/
inductive StatementKind where
  | declare (name : Ident) (init : Option Expr)
  | assign (target value : Expr)
  | expr (value : Expr)
  | ret (value : Option Expr)
  | block (body : Block)
  | branch (condition : Expr) (yes : Block) (no : Option Block)
  | switch (subject : Expr) (arms : List Arm) (otherwise : Option Block)
  | loop (label : Option Ident) (head : LoopHead) (body : Block)
  | jump (kind : JumpKind) (label : Option Ident)
  | wait (body : Block)
  | func (function : Func)

/-- One arm of a switch. -/
structure Arm where
  test : Expr
  body : Block
  span : Span

/-- What drives a loop: a test before each round, a test after it, or the three parts of a
counting loop. -/
inductive LoopHead where
  | whileDo (condition : Expr)
  | doWhile (condition : Expr)
  | counting (init : Option Statement) (test : Option Expr) (update : Option Statement)

end

/-- A source file: functions in order. -/
structure Module where
  functions : List Func
  span : Span

instance : Inhabited Expr := ⟨.null default⟩
instance : Inhabited Block := ⟨⟨0, [], default⟩⟩
instance : Inhabited Func := ⟨⟨0, none, [], default, default⟩⟩
instance : Inhabited Statement := ⟨⟨0, .ret none, default⟩⟩
instance : Inhabited Module := ⟨⟨[], default⟩⟩

namespace Expr

def span : Expr → Span
  | int _ s | str _ s | bool _ s | null s | unary _ _ s | binary _ _ _ s | call _ _ s
  | member _ _ s | defer _ s => s
  | ident name => name.span
  | func f => f.span

def isLiteral : Expr → Bool
  | int .. | str .. | bool .. | null .. => true
  | _ => false

/-- What may stand on the left of an assignment. -/
def isAssignable : Expr → Bool
  | ident .. | member .. => true
  | _ => false

end Expr

namespace Func

/-- The name of a function in messages. -/
def displayName (f : Func) : String :=
  match f.name with
  | some name => name.name
  | none => "<anonymous>"

end Func

namespace StatementKind

def name : StatementKind → String
  | declare .. => "let"
  | assign .. => "assignment"
  | expr .. => "expression"
  | ret .. => "return"
  | block .. => "block"
  | branch .. => "if"
  | switch .. => "switch"
  | loop .. => "loop"
  | jump kind _ => kind.keyword.text
  | wait .. => "wait"
  | func .. => "function"

def isJump : StatementKind → Bool
  | jump .. => true
  | _ => false

end StatementKind

namespace LoopHead

def name : LoopHead → String
  | whileDo .. => "while"
  | doWhile .. => "do-while"
  | counting .. => "for"

end LoopHead
end WaitDefer

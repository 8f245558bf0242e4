import WaitDefer.Json.Reader
import WaitDefer.Json.Record
import WaitDefer.Tree

/-! The tree from JSON. -/
namespace WaitDefer

open Json

namespace Decode

/-- The largest byte offset. -/
def lastOffset : Nat := 0xFFFFFFFFFFFFFFFF

/-- The largest id, line or column. -/
def lastIndex : Nat := 0xFFFFFFFF

/-- Arrays and objects may nest this deep. -/
def nesting : Nat := 127

def span : Decoder Span
  | room + 1, j => do
    match ← fields ["start", "end", "line", "column"] j with
    | [start, stop, line, column] =>
      return {
        start := ← required (upTo lastOffset room) start
        stop := ← required (upTo lastOffset room) stop
        line := ← required (upTo lastIndex room) line
        column := ← required (upTo lastIndex room) column }
    | _ => none
  | 0, _ => none

def id : Decoder NodeId := upTo lastIndex

def ident : Decoder Ident
  | room + 1, j => do
    match ← fields ["name", "span"] j with
    | [name, place] => return ⟨← required (text room) name, ← required (span room) place⟩
    | _ => none
  | 0, _ => none

def unaryOp (room : Nat) (j : Json) : Option UnaryOp := do
  match ← bareForm? room j with
  | "Not" => some .not
  | "Minus" => some .minus
  | _ => none

def binaryOp (room : Nat) (j : Json) : Option BinaryOp := do
  match ← bareForm? room j with
  | "Or" => some .or
  | "And" => some .and
  | "Equal" => some .equal
  | "NotEqual" => some .notEqual
  | "Less" => some .less
  | "LessEqual" => some .lessEqual
  | "Greater" => some .greater
  | "GreaterEqual" => some .greaterEqual
  | "Add" => some .add
  | "Subtract" => some .subtract
  | "Multiply" => some .multiply
  | "Divide" => some .divide
  | "Modulo" => some .modulo
  | _ => none

/-- A record whose only field is a label. -/
def labelOnly : Decoder (Option Ident)
  | room + 1, j => do
    match ← fields ["label"] j with
    | [label] => maybe (ident room) label
    | _ => none
  | 0, _ => none

/-- A literal: a value and its place. -/
def literal (value : Decoder α) (make : α → Span → Expr) : Decoder Expr
  | room + 1, j => do
    match ← fields ["value", "span"] j with
    | [v, place] => return make (← required (value room) v) (← required (span room) place)
    | _ => none
  | 0, _ => none

def deferral : Decoder Expr
  | room + 1, j => do
    match ← fields ["bindings", "span"] j with
    | [bindings, place] =>
      return .defer (← required (items ident room) bindings) (← required (span room) place)
    | _ => none
  | 0, _ => none

mutual

def func : Nat → Json → Option Func
  | room + 1, j => do
    match ← fields ["id", "name", "params", "body", "span"] j with
    | [i, name, params, body, place] =>
      return ⟨← required (id room) i, ← maybe (ident room) name, ← required (items ident room) params,
        ← required (block room) body, ← required (span room) place⟩
    | _ => none
  | 0, _ => none

def block : Nat → Json → Option Block
  | room + 1, j => do
    match ← fields ["id", "statements", "span"] j with
    | [i, ss, place] =>
      return ⟨← required (id room) i, ← required (statementList room) ss,
        ← required (span room) place⟩
    | _ => none
  | 0, _ => none

def statementList : Nat → Json → Option (List Statement)
  | room + 1, .arr xs => xs.mapM (statement room)
  | _, _ => none

def statement : Nat → Json → Option Statement
  | room + 1, j => do
    match ← fields ["id", "kind", "span"] j with
    | [i, kind, place] =>
      return ⟨← required (id room) i, ← required (statementKind room) kind,
        ← required (span room) place⟩
    | _ => none
  | 0, _ => none

def statementKind : Nat → Json → Option StatementKind
  | room + 1, j => do
    let (name, content) ← form? j
    match name with
    | "Let" => declaration room content
    | "Assign" => assignment room content
    | "Expression" => return .expr (← expr room content)
    | "Return" => return .ret (← maybe (expr room) (some content))
    | "Block" => return .block (← block room content)
    | "If" => branch room content
    | "Switch" => switch room content
    | "Loop" => loop room content
    | "Break" => return .jump .leave (← labelOnly room content)
    | "Continue" => return .jump .resume (← labelOnly room content)
    | "Wait" => return .wait (← block room content)
    | "Function" => return .func (← func room content)
    | _ => none
  | 0, _ => none

def declaration : Nat → Json → Option StatementKind
  | room + 1, j => do
    match ← fields ["name", "init"] j with
    | [name, init] =>
      return .declare (← required (ident room) name) (← maybe (expr room) init)
    | _ => none
  | 0, _ => none

def assignment : Nat → Json → Option StatementKind
  | room + 1, j => do
    match ← fields ["target", "value"] j with
    | [target, value] =>
      return .assign (← required (expr room) target) (← required (expr room) value)
    | _ => none
  | 0, _ => none

def branch : Nat → Json → Option StatementKind
  | room + 1, j => do
    match ← fields ["condition", "then_branch", "else_branch"] j with
    | [condition, yes, no] =>
      return .branch (← required (expr room) condition) (← required (block room) yes)
        (← maybe (block room) no)
    | _ => none
  | 0, _ => none

def switch : Nat → Json → Option StatementKind
  | room + 1, j => do
    match ← fields ["discriminant", "cases", "default"] j with
    | [subject, arms, otherwise] =>
      return .switch (← required (expr room) subject) (← required (armList room) arms)
        (← maybe (block room) otherwise)
    | _ => none
  | 0, _ => none

def armList : Nat → Json → Option (List Arm)
  | room + 1, .arr xs => xs.mapM (arm room)
  | _, _ => none

def arm : Nat → Json → Option Arm
  | room + 1, j => do
    match ← fields ["test", "body", "span"] j with
    | [test, body, place] =>
      return ⟨← required (expr room) test, ← required (block room) body,
        ← required (span room) place⟩
    | _ => none
  | 0, _ => none

def loop : Nat → Json → Option StatementKind
  | room + 1, j => do
    match ← fields ["label", "kind", "body"] j with
    | [label, head, body] =>
      return .loop (← maybe (ident room) label) (← required (loopHead room) head)
        (← required (block room) body)
    | _ => none
  | 0, _ => none

def loopHead : Nat → Json → Option LoopHead
  | room + 1, j => do
    let (name, content) ← form? j
    match name with
    | "While" => return .whileDo (← conditionOnly room content)
    | "DoWhile" => return .doWhile (← conditionOnly room content)
    | "For" => counting room content
    | _ => none
  | 0, _ => none

def conditionOnly : Nat → Json → Option Expr
  | room + 1, j => do
    match ← fields ["condition"] j with
    | [condition] => required (expr room) condition
    | _ => none
  | 0, _ => none

def counting : Nat → Json → Option LoopHead
  | room + 1, j => do
    match ← fields ["init", "test", "update"] j with
    | [init, test, update] =>
      return .counting (← maybe (statement room) init) (← maybe (expr room) test)
        (← maybe (statement room) update)
    | _ => none
  | 0, _ => none

def expr : Nat → Json → Option Expr
  | room + 1, j => do
    let (name, content) ← form? j
    match name with
    | "IntLiteral" => literal signed64 .int room content
    | "StringLiteral" => literal text .str room content
    | "BooleanLiteral" => literal truth .bool room content
    | "NullLiteral" => return .null (← span room content)
    | "Identifier" => return .ident (← ident room content)
    | "Unary" => unary room content
    | "Binary" => binary room content
    | "Call" => call room content
    | "Member" => member room content
    | "Function" => return .func (← func room content)
    | "Defer" => deferral room content
    | _ => none
  | 0, _ => none

def unary : Nat → Json → Option Expr
  | room + 1, j => do
    match ← fields ["operator", "operand", "span"] j with
    | [op, operand, place] =>
      return .unary (← required (unaryOp room) op) (← required (expr room) operand)
        (← required (span room) place)
    | _ => none
  | 0, _ => none

def binary : Nat → Json → Option Expr
  | room + 1, j => do
    match ← fields ["operator", "left", "right", "span"] j with
    | [op, left, right, place] =>
      return .binary (← required (binaryOp room) op) (← required (expr room) left)
        (← required (expr room) right) (← required (span room) place)
    | _ => none
  | 0, _ => none

def call : Nat → Json → Option Expr
  | room + 1, j => do
    match ← fields ["callee", "arguments", "span"] j with
    | [callee, arguments, place] =>
      return .call (← required (expr room) callee) (← required (exprList room) arguments)
        (← required (span room) place)
    | _ => none
  | 0, _ => none

def member : Nat → Json → Option Expr
  | room + 1, j => do
    match ← fields ["object", "property", "span"] j with
    | [object, property, place] =>
      return .member (← required (expr room) object) (← required (ident room) property)
        (← required (span room) place)
    | _ => none
  | 0, _ => none

def exprList : Nat → Json → Option (List Expr)
  | room + 1, .arr xs => xs.mapM (expr room)
  | _, _ => none

end

def wholeModule : Decoder Module
  | room + 1, j => do
    match ← fields ["functions", "span"] j with
    | [functions, place] =>
      return ⟨← required (items func room) functions, ← required (span room) place⟩
    | _ => none
  | 0, _ => none

end Decode

namespace Module

/-- The module a JSON text stands for. -/
def read? (source : String) : Option Module := do
  Decode.wholeModule Decode.nesting (← Json.parse? source)

end Module
end WaitDefer

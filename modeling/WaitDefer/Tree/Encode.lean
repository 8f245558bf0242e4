import WaitDefer.Json.Writer
import WaitDefer.Tree

/-! The tree as JSON, for exchange with other compilers. A record is an object with its fields in
order; one of several forms is an object with one member, named for the form. -/
namespace WaitDefer

def Span.toJson (s : Span) : Json :=
  .obj [("start", .nat s.start), ("end", .nat s.stop), ("line", .nat s.line),
    ("column", .nat s.column)]

def Ident.toJson (i : Ident) : Json :=
  .obj [("name", .str i.name), ("span", i.span.toJson)]

def UnaryOp.formName : UnaryOp → String
  | not => "Not"
  | minus => "Minus"

def BinaryOp.formName : BinaryOp → String
  | or => "Or"
  | and => "And"
  | equal => "Equal"
  | notEqual => "NotEqual"
  | less => "Less"
  | lessEqual => "LessEqual"
  | greater => "Greater"
  | greaterEqual => "GreaterEqual"
  | add => "Add"
  | subtract => "Subtract"
  | multiply => "Multiply"
  | divide => "Divide"
  | modulo => "Modulo"

def JumpKind.formName : JumpKind → String
  | leave => "Break"
  | resume => "Continue"

namespace Json

/-- One of several forms. -/
def form (name : String) (payload : Json) : Json := .obj [(name, payload)]

end Json

mutual

def Func.toJson : Func → Json
  | ⟨id, name, params, body, span⟩ =>
    .obj [("id", .nat id), ("name", .optional Ident.toJson name),
      ("params", .list Ident.toJson params), ("body", body.toJson), ("span", span.toJson)]

def Block.toJson : Block → Json
  | ⟨id, statements, span⟩ =>
    .obj [("id", .nat id), ("statements", .arr (Statement.listToJson statements)),
      ("span", span.toJson)]

def Statement.listToJson : List Statement → List Json
  | [] => []
  | s :: ss => s.toJson :: Statement.listToJson ss

def Statement.toJson : Statement → Json
  | ⟨id, kind, span⟩ =>
    .obj [("id", .nat id), ("kind", kind.toJson), ("span", span.toJson)]

def StatementKind.toJson : StatementKind → Json
  | .declare name init =>
    .form "Let" (.obj [("name", name.toJson),
      ("init", match init with
        | some e => e.toJson
        | none => .null)])
  | .assign target value =>
    .form "Assign" (.obj [("target", target.toJson), ("value", value.toJson)])
  | .expr value => .form "Expression" value.toJson
  | .ret none => .form "Return" .null
  | .ret (some value) => .form "Return" value.toJson
  | .block body => .form "Block" body.toJson
  | .branch condition yes no =>
    .form "If" (.obj [("condition", condition.toJson), ("then_branch", yes.toJson),
      ("else_branch", match no with
        | some b => b.toJson
        | none => .null)])
  | .switch subject arms otherwise =>
    .form "Switch" (.obj [("discriminant", subject.toJson), ("cases", .arr (Arm.listToJson arms)),
      ("default", match otherwise with
        | some b => b.toJson
        | none => .null)])
  | .loop label head body =>
    .form "Loop" (.obj [("label", .optional Ident.toJson label), ("kind", head.toJson),
      ("body", body.toJson)])
  | .jump kind label =>
    .form kind.formName (.obj [("label", .optional Ident.toJson label)])
  | .wait body => .form "Wait" body.toJson
  | .func f => .form "Function" f.toJson

def LoopHead.toJson : LoopHead → Json
  | .whileDo condition => .form "While" (.obj [("condition", condition.toJson)])
  | .doWhile condition => .form "DoWhile" (.obj [("condition", condition.toJson)])
  | .counting init test update =>
    .form "For" (.obj [
      ("init", match init with
        | some s => s.toJson
        | none => .null),
      ("test", match test with
        | some e => e.toJson
        | none => .null),
      ("update", match update with
        | some s => s.toJson
        | none => .null)])

def Arm.listToJson : List Arm → List Json
  | [] => []
  | ⟨test, body, span⟩ :: arms =>
    .obj [("test", test.toJson), ("body", body.toJson), ("span", span.toJson)] ::
      Arm.listToJson arms

def Expr.toJson : Expr → Json
  | .int value span => .form "IntLiteral" (.obj [("value", .int value), ("span", span.toJson)])
  | .str value span => .form "StringLiteral" (.obj [("value", .str value), ("span", span.toJson)])
  | .bool value span =>
    .form "BooleanLiteral" (.obj [("value", .bool value), ("span", span.toJson)])
  | .null span => .form "NullLiteral" span.toJson
  | .ident name => .form "Identifier" name.toJson
  | .unary op operand span =>
    .form "Unary" (.obj [("operator", .str op.formName), ("operand", operand.toJson),
      ("span", span.toJson)])
  | .binary op left right span =>
    .form "Binary" (.obj [("operator", .str op.formName), ("left", left.toJson),
      ("right", right.toJson), ("span", span.toJson)])
  | .call callee arguments span =>
    .form "Call" (.obj [("callee", callee.toJson), ("arguments", .arr (Expr.listToJson arguments)),
      ("span", span.toJson)])
  | .member object property span =>
    .form "Member" (.obj [("object", object.toJson), ("property", property.toJson),
      ("span", span.toJson)])
  | .func f => .form "Function" f.toJson
  | .defer bindings span =>
    .form "Defer" (.obj [("bindings", .list Ident.toJson bindings), ("span", span.toJson)])

def Expr.listToJson : List Expr → List Json
  | [] => []
  | e :: es => e.toJson :: Expr.listToJson es

end

namespace Module

def toJson (m : Module) : Json :=
  .obj [("functions", .list Func.toJson m.functions), ("span", m.span.toJson)]

/-- A module as JSON text. -/
def write (m : Module) : String := m.toJson.pretty

end Module
end WaitDefer

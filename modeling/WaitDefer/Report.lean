import WaitDefer.Compile
import WaitDefer.Json.Writer

/-! Reports for people and tools: a message with labels that point into a text, and notes. -/
namespace WaitDefer

namespace Position

/-- The point reached from `p` by passing the characters that end at or before byte `offset`. -/
def upTo (offset : Nat) (p : Position) : List Char → Position
  | [] => p
  | c :: cs => if p.offset + c.utf8Size ≤ offset then upTo offset (p.step c) cs else p

/-- Line and column of a byte offset; inside a character, those of the character, and past the end,
those of the end. -/
def ofOffset (text : String) (offset : Nat) : Position := upTo offset .start text.toList

end Position

/-- How serious a report is. -/
inductive ReportLevel
  | bug | error | warning | note | help
  deriving DecidableEq, Repr, Inhabited

namespace ReportLevel

def text : ReportLevel → String
  | bug => "bug"
  | error => "error"
  | warning => "warning"
  | note => "note"
  | help => "help"

end ReportLevel

/-- The main place of a report, or one that has to do with it. -/
inductive LabelStyle
  | primary | secondary
  deriving DecidableEq, Repr, Inhabited

namespace LabelStyle

def text : LabelStyle → String
  | primary => "primary"
  | secondary => "secondary"

end LabelStyle

/-- A place in a file and what there is to say about it. -/
structure Label where
  style : LabelStyle
  file : Nat
  span : Span
  message : String
  deriving DecidableEq, Repr, Inhabited

structure Report where
  level : ReportLevel
  message : String
  code : Option String := none
  labels : List Label := []
  notes : List String := []
  deriving DecidableEq, Repr, Inhabited

/-- A file with a name and a text; files are numbered from zero. -/
structure SourceFile where
  name : String
  text : String
  deriving DecidableEq, Repr, Inhabited

namespace Report

def withCode (r : Report) (code : String) : Report := { r with code := some code }

def withLabel (r : Report) (style : LabelStyle) (file : Nat) (span : Span) (message : String) :
    Report :=
  { r with labels := r.labels ++ [⟨style, file, span, message⟩] }

def withNote (r : Report) (note : String) : Report := { r with notes := r.notes ++ [note] }

def withHelp (r : Report) (help : String) : Report := r.withNote ("help: " ++ help)

/-! ## Reports of what went wrong -/

def ofViolation (file : Nat) (v : Violation) : Report :=
  let r : Report := { level := .error, message := v.message, code := some v.code }
  let primary := r.withLabel .primary file v.span
  match v.rule with
  | .jumpOutsideLoop _ => primary "not inside a loop"
  | .undefinedLabel _ => primary "no enclosing loop has this label"
  | .deferOutsideWait =>
    (primary "not inside a wait-block").withHelp
      "wrap the asynchronous call in `wait \x7b ... \x7d`"
  | .jumpOutOfWait _ wait =>
    ((primary "jumps out of the wait-block").withLabel .secondary file wait
      "wait-block entered here").withNote
        "a wait-block body runs to completion before its continuation"
  | .crossLoopJump _ _ inner =>
    ((primary "jump to an outer loop").withLabel .secondary file inner
      "crosses this loop").withHelp
        "restructure so the jump targets its nearest enclosing loop"
  | .valueReturn _ =>
    ((primary "value would be lost").withNote
      "the caller resumes at the first wait-block").withHelp
        "pass the result to a callback parameter instead"
  | .reservedName _ reserved =>
    (primary "reserved for synthesized names").withHelp
      ("rename it so it does not start with '" ++ reserved ++ "'")
  | .nestingTooDeep _ => primary "nesting limit reached here"

/-- A warning, which is an error where it was denied. -/
def ofWarning (file : Nat) (denied : Bool) (w : EmptyWait) : Report :=
  let r : Report := {
    level := if denied then .error else .warning
    message := EmptyWait.message
    code := some EmptyWait.code }
  (r.withLabel .primary file w.span "no defer() in this block").withNote
    ("silence with `" ++ EmptyWait.name ++ " = \"off\"` under [transform.severity]")

def ofInternalError (file : Nat) (e : InternalError) : Report :=
  let r : Report := { level := .bug, message := e.message, code := some e.code }
  (r.withLabel .primary file e.span "while rotating this").withNote
    "this is a bug in the transform, not in the input"

def ofSyntaxError (file : Nat) (e : SyntaxError) : Report :=
  let r : Report := {
    level := .error
    message := e.message
    code := some CompileError.syntaxCode }
  let r := r.withLabel .primary file e.span "here"
  match e.suggestion with
  | some s => r.withHelp s
  | none => r

/-- A report for everything a compile error is about. -/
def ofCompileError (file : Nat) : CompileError → List Report
  | .syntactic errors => errors.map (ofSyntaxError file)
  | .rules _ violations => violations.map (ofViolation file)
  | .denied _ warnings => warnings.map (ofWarning file true)
  | .internal _ error => [ofInternalError file error]

/-! ## JSON -/

/-- A label with lines and columns; nothing if its file does not exist. -/
def labelJson? (files : List SourceFile) (l : Label) : Option Json :=
  match files[l.file]? with
  | some file =>
    let a := Position.ofOffset file.text l.span.start
    let b := Position.ofOffset file.text l.span.stop
    some (.obj [("file", .str file.name), ("start_line", .nat a.line),
      ("start_column", .nat a.column), ("end_line", .nat b.line), ("end_column", .nat b.column),
      ("message", .str l.message), ("style", .str l.style.text)])
  | none => none

def toJson (files : List SourceFile) (r : Report) : Json :=
  .obj [("code", .optional .str r.code), ("severity", .str r.level.text),
    ("message", .str r.message), ("labels", .arr (r.labels.filterMap (labelJson? files))),
    ("notes", .list .str r.notes)]

/-- A report as JSON text. -/
def write (files : List SourceFile) (r : Report) : String := (r.toJson files).pretty

/-- A report can be drawn if every file it points into exists. -/
def isDrawable (files : List SourceFile) (r : Report) : Bool :=
  r.labels.all fun l => l.file < files.length

end Report
end WaitDefer

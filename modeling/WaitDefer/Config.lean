import WaitDefer.Token.Lexer

/-! What can be set about the transform: the names the output uses, how deep statements may nest,
whether the output is checked, and how warnings are reported. -/
namespace WaitDefer

/-- How a warning is reported: not at all, as a warning, or as an error of its function. -/
inductive Severity
  | off | warn | error
  deriving DecidableEq, Repr, Inhabited

namespace Severity

def text : Severity → String
  | off => "off"
  | warn => "warn"
  | error => "error"

def ofText? : String → Option Severity
  | "off" => some off
  | "warn" => some warn
  | "error" => some error
  | _ => none

end Severity

/-- The names by which the output calls the counter of callbacks: the function that makes a
counter, its method that makes a callback, and its method that takes the continuation. -/
structure RuntimeNames where
  newCounter : String := "newDeferralCounter"
  defer : String := "defer"
  wait : String := "wait"
  deriving DecidableEq, Repr, Inhabited

/-- Settings of the transform. -/
structure Config where
  /-- How every name begins that the transform makes up. -/
  reservedPrefix : String := "__"
  runtime : RuntimeNames := {}
  /-- Statements may nest this deep. -/
  maxDepth : Nat := 256
  /-- Check the output. -/
  verify : Bool := true
  /-- Severities by name of the warning, the latest first. -/
  severities : List (String × Severity) := []
  deriving DecidableEq, Repr

instance : Inhabited Config := ⟨{}⟩

/-- Why a configuration is refused. -/
inductive ConfigError
  | invalidPrefix (name : String)
  | invalidRuntimeName (name : String)
  | zeroDepth
  | unknownWarning (name : String)
  deriving DecidableEq, Repr, Inhabited

namespace ConfigError

def message : ConfigError → String
  | invalidPrefix name => "Reserved prefix '" ++ name ++ "' is not a valid identifier prefix"
  | invalidRuntimeName name => "Runtime name '" ++ name ++ "' is not a valid identifier"
  | zeroDepth => "max_depth must be at least 1"
  | unknownWarning name => "Unknown warning '" ++ name ++ "' in severity overrides"

end ConfigError

namespace Config

/-- The warnings whose severity can be set. -/
def warningNames : List String := ["empty-wait"]

/-- The names of the runtime that are checked, in order. -/
def runtimeNames (c : Config) : List String :=
  [c.runtime.newCounter, c.runtime.defer, c.runtime.wait]

/-- The first reason to refuse a configuration. -/
def fault? (c : Config) : Option ConfigError :=
  if !Lexer.isIdentifier c.reservedPrefix then some (.invalidPrefix c.reservedPrefix)
  else match c.runtimeNames.find? (!Lexer.isIdentifier ·) with
    | some name => some (.invalidRuntimeName name)
    | none =>
      if c.maxDepth = 0 then some .zeroDepth
      else (c.severities.find? (!warningNames.contains ·.1)).map (.unknownWarning ·.1)

/-- The configuration itself, unless there is a reason to refuse it. -/
def validate (c : Config) : Except ConfigError Config :=
  match c.fault? with
  | some e => .error e
  | none => .ok c

/-- Sets the severity of a warning. -/
def setSeverity (c : Config) (warning : String) (s : Severity) : Config :=
  { c with severities := (warning, s) :: c.severities.filter (·.1 != warning) }

/-- The severity that was set for a warning, or else `fallback`. -/
def severity (c : Config) (warning : String) (fallback : Severity) : Severity :=
  (c.severities.lookup warning).getD fallback

/-- A warning was switched off. -/
def isDisabled (c : Config) (warning : String) : Bool :=
  c.severities.lookup warning == some .off

/-- A name that could clash with one the transform makes up. -/
def isReserved (c : Config) (name : String) : Bool :=
  c.reservedPrefix.toList.isPrefixOf name.toList

end Config
end WaitDefer

import WaitDefer.Config
import WaitDefer.Json.Record
import WaitDefer.Toml.Document

/-! Configurations as documents: as JSON, and as the table `transform` of a TOML document. Every
field may be left out, and has its default then; other fields are ignored. -/
namespace WaitDefer.Config

/-- What the formats of a document differ in. -/
structure Format where
  /-- An array may have more items than there are fields. -/
  extraItems : Bool
  /-- What may follow the name of a severity where it is the only field of an object. -/
  isEmpty : Json → Bool

namespace Format

def json : Format := ⟨false, fun | .null => true | _ => false⟩

def toml : Format := ⟨true, fun | .obj [] | .arr [] => true | _ => false⟩

/-- The values of some fields: of an object the last ones of their names, of an array its items in
order. -/
def fields (format : Format) (names : List String) : Json → Option (List (Option Json))
  | .obj members => some (names.map fun name => members.reverse.lookup name)
  | .arr items =>
    if items.length ≤ names.length || format.extraItems then
      some ((List.range names.length).map (items[·]?))
    else none
  | _ => none

/-- The value of a field, or the default if it is missing. -/
def field (decode : Json → Option α) (fallback : α) : Option Json → Option α
  | some j => decode j
  | none => some fallback

def severity (format : Format) : Json → Option Severity
  | .str s => Severity.ofText? s
  | .obj [(s, content)] => if format.isEmpty content then Severity.ofText? s else none
  | _ => none

/-- The severities of an object; of several for one warning the last one counts. -/
def severities (format : Format) : Json → Option (List (String × Severity))
  | .obj members => do
    let entries ← members.mapM fun (name, j) => return (name, ← format.severity j)
    return (entries.foldl (fun c e => c.setSeverity e.1 e.2) ({} : Config)).severities
  | _ => none

def runtimeNames (format : Format) (j : Json) : Option RuntimeNames := do
  match ← format.fields ["new_counter", "defer", "wait"] j with
  | [newCounter, defer, wait] =>
    let defaults : RuntimeNames := {}
    return {
      newCounter := ← field (Json.text 0) defaults.newCounter newCounter
      defer := ← field (Json.text 0) defaults.defer defer
      wait := ← field (Json.text 0) defaults.wait wait }
  | _ => none

/-- The configuration that a value describes. -/
def config? (format : Format) (j : Json) : Option Config := do
  match ← format.fields ["reserved_prefix", "runtime", "max_depth", "verify", "severity"] j with
  | [reservedPrefix, runtime, maxDepth, verify, severities] =>
    let defaults : Config := {}
    return {
      reservedPrefix := ← field (Json.text 0) defaults.reservedPrefix reservedPrefix
      runtime := ← field format.runtimeNames defaults.runtime runtime
      maxDepth := ← field (Json.upTo 0xFFFFFFFFFFFFFFFF 0) defaults.maxDepth maxDepth
      verify := ← field (Json.truth 0) defaults.verify verify
      severities := ← field format.severities defaults.severities severities }
  | _ => none

end Format

def ofJson? (j : Json) : Option Config := Format.json.config? j

def toJson (c : Config) : Json :=
  .obj [
    ("reserved_prefix", .str c.reservedPrefix),
    ("runtime", .obj [
      ("new_counter", .str c.runtime.newCounter),
      ("defer", .str c.runtime.defer),
      ("wait", .str c.runtime.wait)]),
    ("max_depth", .nat c.maxDepth),
    ("verify", .bool c.verify),
    ("severity", .obj (c.severities.map fun e => (e.1, .str e.2.text)))]

/-- Why a TOML document gives no configuration. -/
inductive DocumentError
  | unreadable
  | refused (reason : ConfigError)
  deriving DecidableEq, Repr, Inhabited

/-- The configuration that a TOML document describes, if there is no reason to refuse it. -/
def ofToml (source : String) : Except DocumentError Config :=
  let config? := do
    let document ← Toml.parse? source
    Format.field Format.toml.config? {} (document.get? "transform")
  match config? with
  | none => .error .unreadable
  | some c => c.validate.mapError .refused

end WaitDefer.Config

import WaitDefer.Marks

/-! Splitting a block. What stands before the first marked statement stays; each marked statement
goes with the unmarked ones after it. Nothing after a marked jump is ever run, so it is dropped. -/
namespace WaitDefer

/-- A marked statement and the unmarked ones that follow it. -/
structure Split where
  pivot : Statement
  following : List Statement
  deriving Inhabited

namespace Split

/-- The part before the first marked statement, then the marked ones. -/
def ofStatements (t : MarkTable) : List Statement → List Statement × List Split
  | [] => ([], [])
  | s :: ss =>
    if t.hasAny s.id .split then
      if s.kind.isJump then ([], [⟨s, []⟩])
      else
        let r := ofStatements t ss
        ([], ⟨s, r.1⟩ :: r.2)
    else
      let r := ofStatements t ss
      (s :: r.1, r.2)

end Split
end WaitDefer

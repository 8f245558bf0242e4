import WaitDefer.Marks

/-! The loops of a function that wait. -/
namespace WaitDefer

/-! Statements that are not marked as waiting hold no loop that is, so they are passed over. -/

mutual

def Block.waitingLoops (t : MarkTable) : Block → List NodeId
  | ⟨_, ss, _⟩ => Statement.listWaitingLoops t ss

def Statement.listWaitingLoops (t : MarkTable) : List Statement → List NodeId
  | [] => []
  | s :: ss => s.waitingLoops t ++ Statement.listWaitingLoops t ss

def Statement.waitingLoops (t : MarkTable) : Statement → List NodeId
  | ⟨id, kind, _⟩ => if t.has id .await then kind.waitingLoops t id else []

def StatementKind.waitingLoops (t : MarkTable) (id : NodeId) : StatementKind → List NodeId
  | .block body | .wait body => body.waitingLoops t
  | .branch _ yes none => yes.waitingLoops t
  | .branch _ yes (some no) => yes.waitingLoops t ++ no.waitingLoops t
  | .switch _ arms none => Arm.listWaitingLoops t arms
  | .switch _ arms (some otherwise) => Arm.listWaitingLoops t arms ++ otherwise.waitingLoops t
  | .loop _ (.whileDo _) body | .loop _ (.doWhile _) body => id :: body.waitingLoops t
  | .loop _ (.counting init _ update) body =>
    id :: ((match init with
      | some s => s.waitingLoops t
      | none => []) ++
    (match update with
      | some s => s.waitingLoops t
      | none => []) ++
    body.waitingLoops t)
  | .declare .. | .assign .. | .expr _ | .ret _ | .jump .. | .func _ => []

def Arm.listWaitingLoops (t : MarkTable) : List Arm → List NodeId
  | [] => []
  | ⟨_, body, _⟩ :: arms => body.waitingLoops t ++ Arm.listWaitingLoops t arms

end

end WaitDefer

import WaitDefer.Proofs.Marking.Exact
import WaitDefer.Proofs.Rotation.Lowering

/-!
# Declarations turned into assignments

Hoisting goes through the code of a function and leaves everything but declarations in place:

* `StatementKind.operands_undeclared`: what an assignment in place of a declaration adds;
* `Node.Bare.undeclared`: bare code stays bare;
* `Block.bare_of_survey`: code that breaks no rule is bare.
-/

namespace WaitDefer

/-! ## Part by part -/

namespace StatementKind

theorem tests_undeclared (kind : StatementKind) : kind.undeclared.tests = kind.tests := by
  cases kind with
  | branch condition yes no => cases no <;> rfl
  | switch subject arms otherwise =>
    cases otherwise <;>
      simp [undeclared, tests, Arm.listUndeclared_eq, Function.comp_def]
  | loop label head body => cases head <;> rfl
  | _ => rfl

theorem headers_undeclared (kind : StatementKind) :
    kind.undeclared.headers = kind.headers.map Statement.undeclared := by
  cases kind with
  | branch condition yes no => cases no <;> rfl
  | switch subject arms otherwise => cases otherwise <;> rfl
  | loop label head body =>
    cases head with
    | counting init test update => cases init <;> cases update <;> rfl
    | whileDo _ => rfl
    | doWhile _ => rfl
  | _ => rfl

theorem blocks_undeclared (kind : StatementKind) :
    kind.undeclared.blocks = kind.blocks.map Block.undeclared := by
  cases kind with
  | branch condition yes no => cases no <;> rfl
  | switch subject arms otherwise =>
    cases otherwise <;>
      simp [undeclared, blocks, Arm.listUndeclared_eq, Function.comp_def]
  | loop label head body => cases head <;> rfl
  | _ => rfl

theorem functions_undeclared (kind : StatementKind) :
    kind.undeclared.functions = kind.functions := by
  cases kind with
  | branch condition yes no => cases no <;> rfl
  | switch subject arms otherwise => cases otherwise <;> rfl
  | loop label head body => cases head <;> rfl
  | _ => rfl

theorem isWait_undeclared (kind : StatementKind) : kind.undeclared.isWait = kind.isWait := by
  cases kind with
  | branch condition yes no => cases no <;> rfl
  | switch subject arms otherwise => cases otherwise <;> rfl
  | loop label head body => cases head <;> rfl
  | _ => rfl

/-- An assignment in place of a declaration has the name as an operand too, and null if there is no
value. -/
theorem operands_undeclared (kind : StatementKind) :
    ∃ more, (∀ e ∈ more, (∃ name ∈ kind.declared, e = .ident name) ∨ ∃ span, e = .null span) ∧
      kind.undeclared.operands = more ++ kind.operands := by
  cases kind with
  | declare name init =>
    cases init with
    | none => exact ⟨[.ident name, .null name.span], by simp [declared], rfl⟩
    | some e => exact ⟨[.ident name], by simp [declared], rfl⟩
  | branch condition yes no => cases no <;> exact ⟨[], by simp, rfl⟩
  | switch subject arms otherwise => cases otherwise <;> exact ⟨[], by simp, rfl⟩
  | loop label head body => cases head <;> exact ⟨[], by simp, rfl⟩
  | _ => exact ⟨[], by simp, rfl⟩

end StatementKind

section
variable {config : Config} {t : MarkTable} {max : NodeId}

/-! ## Bare code -/

theorem Node.Raw.undeclared {b : Block} (h : (Node.block b).Raw max) :
    (Node.block b.undeclared).Raw max := by
  induction b using Block.inductOn (Q := fun s => (Node.statement s).Raw max →
      (Node.statement s.undeclared).Raw max) with
  | block b ih =>
    rw [raw_block] at h ⊢
    intro x hx
    rw [Block.undeclared_eq] at hx
    obtain ⟨s, hs, rfl⟩ := List.mem_map.mp hx
    exact ih s hs (h s hs)
  | statement s headers blocks =>
    rename_i raw
    rw [raw_statement] at raw
    rw [raw_statement, Statement.undeclared_eq]
    refine ⟨fun e he => ?_, ?_, fun x hx => ?_, fun x hx => ?_⟩
    · obtain ⟨more, trivial, operands⟩ := s.kind.operands_undeclared
      rw [StatementKind.tests_undeclared, operands, List.mem_append, List.mem_append] at he
      rcases he with he | he | he
      · exact raw.exprs e (List.mem_append_left _ he)
      · rcases trivial e he with ⟨name, -, rfl⟩ | ⟨span, rfl⟩ <;> simp [Expr.ownNodes, Expr.nodes]
      · exact raw.exprs e (List.mem_append_right _ he)
    · rw [StatementKind.functions_undeclared]
      exact raw.functions
    · rw [StatementKind.headers_undeclared] at hx
      obtain ⟨h, hh, rfl⟩ := List.mem_map.mp hx
      exact headers h hh (raw.headers h hh)
    · rw [StatementKind.blocks_undeclared] at hx
      obtain ⟨b, hb, rfl⟩ := List.mem_map.mp hx
      exact blocks b hb (raw.blocks b hb)

theorem Node.Bare.undeclared {b : Block} (h : (Node.block b).Bare t max) :
    (Node.block b.undeclared).Bare t max := by
  induction b using Block.inductOn (Q := fun s => (Node.statement s).Bare t max →
      (Node.statement s.undeclared).Bare t max) with
  | block b ih =>
    cases h with
    | block statements =>
      refine .block fun x hx => ?_
      rw [Block.undeclared_eq] at hx
      obtain ⟨s, hs, rfl⟩ := List.mem_map.mp hx
      exact ih s hs (statements s hs)
  | statement s headers blocks =>
    rename_i bare
    cases bare with
    | @wait _ body isWait raw =>
      have isWait : s.undeclared.kind = .wait body.undeclared := by
        rw [Statement.undeclared_eq, isWait]
        rfl
      exact .wait isWait raw.undeclared
    | other notWait exprs functions bareHeaders bareBlocks =>
      rw [Statement.undeclared_eq]
      refine .other (by rw [StatementKind.isWait_undeclared, notWait]) (fun e he => ?_) ?_
        (fun x hx => ?_) fun x hx => ?_
      · obtain ⟨more, trivial, operands⟩ := s.kind.operands_undeclared
        rw [StatementKind.tests_undeclared, operands, List.mem_append, List.mem_append] at he
        rcases he with he | he | he
        · exact exprs e (List.mem_append_left _ he)
        · rcases trivial e he with ⟨name, -, rfl⟩ | ⟨span, rfl⟩
          · exact Expr.clean_of_operands (by simp) (by simp) (by simp [Expr.operands])
          · exact Expr.clean_of_operands (by simp) (by simp) (by simp [Expr.operands])
        · exact exprs e (List.mem_append_right _ he)
      · rw [StatementKind.functions_undeclared]
        exact functions
      · rw [StatementKind.headers_undeclared] at hx
        obtain ⟨h, hh, rfl⟩ := List.mem_map.mp hx
        exact headers h hh (bareHeaders h hh)
      · rw [StatementKind.blocks_undeclared] at hx
        obtain ⟨b, hb, rfl⟩ := List.mem_map.mp hx
        exact blocks b hb (bareBlocks b hb)

/-- Outside of wait-blocks, code that breaks no rule holds no callbacks. -/
theorem Block.bare_of_survey {b : Block} {room : Nat}
    (lawful : (b.survey config room false).violations = []) (raw : (Node.block b).Raw max) :
    (Node.block b).Bare t max := by
  induction b using Block.inductOn (Q := fun s => ∀ room,
      (s.survey config room false).violations = [] → (Node.statement s).Raw max →
        (Node.statement s).Bare t max) generalizing room with
  | block b ih =>
    rw [Block.survey_eq, Survey.within_violations, Statement.listSurvey_violations_eq_nil] at lawful
    rw [Node.raw_block] at raw
    exact .block fun s hs => ih s hs room (lawful s hs) (raw s hs)
  | statement s headers blocks =>
    rename_i room lawful raw
    obtain ⟨r, rfl⟩ := Statement.room_of_survey config lawful
    have lawful := Statement.lawful_of_survey config lawful
    rw [Node.raw_statement] at raw
    cases isWait : s.kind.isWait with
    | true =>
      obtain ⟨body, isWait⟩ : ∃ body, s.kind = .wait body := by
        cases hk : s.kind <;> simp_all [StatementKind.isWait]
      exact .wait isWait (raw.blocks body (by simp [isWait, StatementKind.blocks]))
    | false =>
      refine .other isWait (fun e he => ?_) raw.functions (fun h hh => ?_) fun b hb => ?_
      · exact Expr.clean_of_own (raw.exprs e he)
          ((Survey.ofExpr_violations_eq_nil e).mp (lawful.exprs e he))
      · exact headers h hh r (lawful.headers h hh) (raw.headers h hh)
      · have := lawful.blocks b hb
        rw [isWait] at this
        exact blocks b hb this (raw.blocks b hb)

end

end WaitDefer

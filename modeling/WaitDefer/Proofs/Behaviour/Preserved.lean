import WaitDefer.Proofs.Behaviour.Answers
import WaitDefer.Proofs.Compile.Conserved

/-!
# Rotation keeps what a function does

* `Matches.alike`: threads that are at the same place once cannot be told apart;
* `Func.alike_of_lower`: a function and what hoisting and rotation make of it cannot be told apart.
-/

namespace WaitDefer

/-! ## Runs -/

section
variable {r : Reading} {oracle : Oracle}

namespace Thread

theorem rightUnique :
    Relator.RightUnique fun t u : Thread => t.step r oracle = some u := by
  intro t u v hu hv
  exact Option.some.inj (hu.symm.trans hv)

theorem events_enter {t u : Thread} {sight : Sight} {callee : Expr}
    (h : t.enter sight callee = some u) : u.events = t.events := by
  obtain ⟨r, -, rfl⟩ := Option.map_eq_some_iff.mp h
  rfl

/-- Events are never taken back. -/
theorem events_perform {t u : Thread} {sight : Sight} {m : Move}
    (h : t.perform oracle sight m = some u) : t.events <:+ u.events := by
  cases m with
  | go | event | choose | declare | create =>
    cases h
    simp [resume, see, bind]
  | leave e =>
    cases e <;> cases h <;> simp [see]
  | call callee todo =>
    rw [events_enter h]
    exact List.suffix_refl _
  | wait counter callee todo =>
    simp only [perform] at h
    split at h
    · rw [events_enter h]
      exact List.suffix_refl _
    · cases h

theorem events_step {t u : Thread} (h : t.step r oracle = some u) : t.events <:+ u.events := by
  obtain ⟨frames, store, events⟩ := t
  cases frames with
  | nil => cases h
  | cons f callers =>
    obtain ⟨m, -, performed⟩ := Option.bind_eq_some_iff.mp h
    have shown := events_perform performed
    exact shown

theorem Reaches.events {t u : Thread} (h : t.Reaches r oracle u) : t.events <:+ u.events := by
  induction h with
  | refl => exact List.suffix_refl _
  | tail _ step ih => exact ih.trans (events_step step)

/-- A thread that has ended stays as it is. -/
theorem Reaches.eq_of_ended {t u : Thread} (h : t.Reaches r oracle u) (ended : t.frames = []) :
    u = t := by
  rcases h.cases_head with rfl | ⟨v, step, -⟩
  · rfl
  · rw [Thread.step, ended] at step
    cases step

end Thread

end

section
variable {t : MarkTable} {max : NodeId} {fresh : NodeId → Prop} {r : Reading} {oracle : Oracle}

namespace Matches

theorem events {σ τ : Thread} (h : Matches t max fresh r σ τ) : σ.events = τ.events := by
  cases h <;> rfl

theorem ended_iff {σ τ : Thread} (h : Matches t max fresh r σ τ) :
    σ.frames = [] ↔ τ.frames = [] := by
  cases h <;> simp

section
variable {σ τ : Thread} (made : ∀ i, fresh i → r.given i = false)
  (h : Matches t max fresh r σ τ)

include made h

/-- Whatever the source does, the rotated function does. -/
theorem forward {σ' : Thread} (run : σ.Reaches r oracle σ') :
    ∃ τ', τ.Reaches r oracle τ' ∧ Matches t max fresh r σ' τ' := by
  induction run with
  | refl => exact ⟨τ, .refl, h⟩
  | @tail σ₁ σ₂ _ step ih =>
    obtain ⟨τ₁, run, there⟩ := ih
    have running : σ₁.frames ≠ [] := by
      intro ended
      rw [Thread.step, ended] at step
      cases step
    obtain ⟨σ', source, ⟨τ₂, τ', target, more, next⟩ | ⟨next, -⟩⟩ :=
      there.answers oracle running made
    · cases Thread.rightUnique step source
      exact ⟨τ', run.trans (.head target more), next⟩
    · cases Thread.rightUnique step source
      exact ⟨τ₁, run, next⟩

variable (oracle) in
/-- Where the rotated function still has a step, it takes one with the source. -/
theorem advance (running : τ.frames ≠ []) : ∃ σ' τ₁ τ', σ.Reaches r oracle σ' ∧
    τ.step r oracle = some τ₁ ∧ τ₁.Reaches r oracle τ' ∧ Matches t max fresh r σ' τ' := by
  induction size : σ.size using Nat.strongRecOn generalizing σ with
  | ind n ih =>
    have running₀ : σ.frames ≠ [] := fun ended => running (h.ended_iff.mp ended)
    obtain ⟨σ', source, ⟨τ₁, τ', target, more, next⟩ | ⟨next, less⟩⟩ :=
      h.answers oracle running₀ made
    · exact ⟨σ', τ₁, τ', .single source, target, more, next⟩
    · obtain ⟨σ₂, τ₁, τ', run, rest⟩ := ih _ (size ▸ less) next rfl
      exact ⟨σ₂, τ₁, τ', .head source run, rest⟩

/-- Whatever the rotated function does leads to a place where the source gets too. -/
theorem backward {τ' : Thread} (run : τ.Reaches r oracle τ') : ∃ σ' τ'',
    σ.Reaches r oracle σ' ∧ τ'.Reaches r oracle τ'' ∧ Matches t max fresh r σ' τ'' := by
  induction run with
  | refl => exact ⟨σ, τ, .refl, .refl, h⟩
  | @tail τ₁ τ₂ _ step ih =>
    obtain ⟨σ', τ'', source, run, there⟩ := ih
    rcases run.cases_head with rfl | ⟨τ₃, step', run⟩
    · have running : τ₁.frames ≠ [] := by
        intro ended
        rw [Thread.step, ended] at step
        cases step
      obtain ⟨σ₂, τ₃, τ₄, more, target, run, next⟩ := there.advance oracle made running
      cases Thread.rightUnique step target
      exact ⟨σ₂, τ₄, source.trans more, run, next⟩
    · cases Thread.rightUnique step step'
      exact ⟨σ', τ'', source, run, there⟩

end

/-- Threads that are at the same place, once the second has come there, cannot be told apart. -/
theorem alike {σ τ₀ τ : Thread} (made : ∀ i, fresh i → r.given i = false)
    (h : Matches t max fresh r σ τ) (start : τ₀.Reaches r oracle τ) : σ.Alike r oracle τ₀ := by
  have back {τ' : Thread} (run : τ₀.Reaches r oracle τ') : ∃ σ' τ'',
      σ.Reaches r oracle σ' ∧ τ'.Reaches r oracle τ'' ∧ Matches t max fresh r σ' τ'' := by
    rcases start.total_of_right_unique Thread.rightUnique run with later | before
    · exact h.backward made later
    · exact ⟨σ, τ, .refl, before, h⟩
  refine ⟨fun es => ⟨?_, ?_⟩, fun es => ⟨?_, ?_⟩, fun σ' run running => ?_,
    fun τ' run running => ?_⟩
  · rintro ⟨σ', run, shown⟩
    obtain ⟨τ', run, there⟩ := h.forward made run
    exact ⟨τ', start.trans run, there.events ▸ shown⟩
  · rintro ⟨τ', run, shown⟩
    obtain ⟨σ', τ'', source, more, there⟩ := back run
    exact ⟨σ', source, there.events ▸ shown.trans more.events⟩
  · rintro ⟨σ', run, ended, rfl⟩
    obtain ⟨τ', run, there⟩ := h.forward made run
    exact ⟨τ', start.trans run, there.ended_iff.mp ended, there.events.symm⟩
  · rintro ⟨τ', run, ended, rfl⟩
    obtain ⟨σ', τ'', source, more, there⟩ := back run
    obtain rfl := more.eq_of_ended ended
    exact ⟨σ', source, there.ended_iff.mpr ended, there.events⟩
  · obtain ⟨τ', -, there⟩ := h.forward made run
    obtain ⟨σ₂, source, -⟩ := there.answers oracle running made
    simp [source]
  · obtain ⟨σ', τ'', source, more, there⟩ := back run
    rcases more.cases_head with rfl | ⟨τ₃, step, -⟩
    · obtain ⟨-, τ₁, -, -, target, -⟩ := there.advance oracle made running
      simp [target]
    · simp [step]

end Matches

end

/-! ## Functions -/

/-- Declarations without values do nothing that can be seen. -/
theorem Declares.reaches {fresh : NodeId → Prop} {r : Reading} {oracle : Oracle}
    {ds : List Statement} (declares : Declares fresh ds) (made : ∀ i, fresh i → r.given i = false)
    (out : List Statement) (sight : Sight) (store : Store) (events : List Event) :
    Thread.Reaches r oracle ⟨[⟨[.statements (ds ++ out)], sight⟩], store, events⟩
      ⟨[⟨[.statements out], sight⟩], store, events⟩ := by
  induction ds with
  | nil => exact .refl
  | cons d ds ih =>
    obtain ⟨⟨i, name, new, rfl⟩, others⟩ := List.forall_mem_cons.mp declares
    have step : Thread.step r oracle
        ⟨[⟨[.statements (.declaration i name :: ds ++ out)], sight⟩], store, events⟩ =
        some ⟨[⟨[.statements (ds ++ out)], sight⟩], store, events⟩ := by
      rw [List.cons_append, Thread.step_made (m := .go []) (made i new) rfl]
      rfl
    exact .head step (ih others)

namespace Func

variable {config : Config} {f : Func} {m : Marking} {max : NodeId}

theorem mem_leafIds {i : NodeId} : i ∈ f.leafIds ↔
    ∃ s, .statement s ∈ f.body.ownNodes ∧ s.kind.isLeaf = true ∧ s.id = i := by
  rw [leafIds, List.mem_filterMap]
  constructor
  · rintro ⟨n, hn, isLeaf⟩
    cases n with
    | statement s => exact ⟨s, hn, by simpa using isLeaf⟩
    | _ => cases isLeaf
  · rintro ⟨s, hs, isLeaf, rfl⟩
    exact ⟨_, hs, by simp [isLeaf]⟩

/-- A function with distinct ids is known when it is read by what it holds. -/
theorem known_body (distinct : (Node.block f.body).ownIds.Nodup) :
    (Node.block f.body).Known (f.reading config) := by
  intro x hx
  have own : .statement x ∈ f.body.ownNodes := hx
  rw [Bool.eq_iff_iff, reading, List.contains_iff_mem, mem_leafIds]
  constructor
  · rintro ⟨s, hs, isLeaf, same⟩
    cases Node.eq_of_id distinct hs own rfl (congrArg some same.symm)
    exact isLeaf
  · exact fun isLeaf => ⟨x, own, isLeaf, rfl⟩

theorem not_given_of_new (old : ∀ i ∈ (Node.block f.body).ownIds, i ≤ max) {i : NodeId}
    (new : max < i) : (f.reading config).given i = false := by
  rw [← Bool.not_eq_true, reading, List.contains_iff_mem, mem_leafIds]
  rintro ⟨s, hs, -, rfl⟩
  exact absurd new (Nat.not_lt.mpr (old _ (Node.mem_ownIds (n := .block f.body) hs rfl)))

/-- **A function does what it did**, after hoisting and rotation: whatever its expressions come to,
the same statements of the user's are run and the same expressions asked, in the same order, without
end or until both end. -/
theorem alike_of_lower (distinct : f.ids.Nodup) (simple : f.HasSimpleHeads)
    (bound : ∀ i ∈ f.ids, i ≤ max) (ok : f.marking config = .ok m) {s : Supply}
    (reserved : s.names.reserved = config.reservedPrefix) (promises : s.ids.Promises (max < ·))
    (last : (f.lower ⟨config, m.table⟩ s).2.ids.exhausted = true → max < NodeId.last) :
    ∃ g s', f.lower ⟨config, m.table⟩ s = (.ok g, s') ∧
      ∀ oracle, f.thread.Alike (f.reading config) oracle g.thread := by
  have fit := Func.fit distinct simple bound
  generalize run : f.lower ⟨config, m.table⟩ s = result
  obtain ⟨result, s'⟩ := result
  rw [run] at last
  obtain ⟨-, -, ds, out, entries, rfl, declares, woven, names⟩ :=
    lower_spec fit.distinct fit.simple ok (fit.unused ok) reserved promises run last
  refine ⟨_, s', rfl, fun oracle => ?_⟩
  let r := f.reading config
  have made : ∀ i, max < i → r.given i = false := fun i => not_given_of_new fit.old
  have same := Block.map_plain_eq (f.body.plain_undeclared config).symm
  have stands : Stands m.table max (max < ·) r [[]] [] [0] [.statements out] [.block f.body] :=
    .run woven ⟨names, by simp⟩ same .free .done
  have there : Matches m.table max (max < ·) r f.thread
      ⟨[⟨[.statements out], [0]⟩], [[]], []⟩ :=
    .rotated (List.forall_mem_singleton.mpr (Task.known_block (known_body fit.distinct))) stands
      ⟨0, rfl, Nat.zero_lt_one⟩ ⟨by simp, by simp⟩
  exact there.alike made (declares.reaches made out [0] [[]] [])

/-- The body is `while (c) { wait { a(defer()); } if (c) { break; a(); } let x = c; } a();`. -/
theorem alike_of_lower_leavingEarly : ∃ m, leavingEarly.marking {} = .ok m ∧
    ∃ g s', leavingEarly.lower ⟨{}, m.table⟩ ⟨.above 12, .new "__"⟩ = (.ok g, s') ∧
      ∀ oracle, leavingEarly.thread.Alike (leavingEarly.reading {}) oracle g.thread := by
  obtain ⟨m, ok⟩ : ∃ m, leavingEarly.marking {} = .ok m :=
    Func.marking_eq_ok (by decide +kernel) (by decide +kernel)
  exact ⟨m, ok, Func.alike_of_lower (by decide) (by decide) (by decide) ok rfl
    (IdSupply.promises_above 12) fun _ => by decide⟩

end Func

end WaitDefer

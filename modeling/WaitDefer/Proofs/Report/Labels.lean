import WaitDefer.Proofs.Source.Places
import WaitDefer.Report

/-!
# Where reports point

A span carries the line and the column that were counted while the text was read. A label is drawn
where its first byte is looked up in the text, so the two have to agree.

* `Span.Opens`: a span that begins at a point of a text, with the line and column of that point;
* `Opens.located`: looking up where it begins finds just these;
* `CompileError.spans`: the places that an error names;
* `Report.spans_ofCompileError`: these are what the labels of its reports are made from;
* `Report.Points`: a report whose labels are all drawn where their spans say;
* `CompileError.ReportedIn`, `EmptyWait.ReportedIn`: an error, or a warning, that is reported in full
  and where it is.
-/

namespace WaitDefer

open String (utf8Len)

/-! ## Looking up a place -/

namespace Position

theorem offset_after (p : Position) (text : List Char) :
    (p.after text).offset = p.offset + utf8Len text := by
  induction text generalizing p with
  | nil => rfl
  | cons c text ih =>
    have step : (p.step c).offset = p.offset + c.utf8Size := by
      unfold Position.step
      split <;> rfl
    rw [after_cons, ih, step, String.utf8Len_cons]
    omega

/-- The point after a run of characters is found where that run ends. -/
theorem upTo_after (p : Position) (before rest : List Char) :
    upTo (p.after before).offset p (before ++ rest) = p.after before := by
  induction before generalizing p with
  | nil =>
    cases rest with
    | nil => rfl
    | cons c rest =>
      have positive := c.utf8Size_pos
      rw [List.nil_append, upTo, if_neg]
      · rfl
      · rw [after_nil]
        omega
  | cons c before ih =>
    rw [List.cons_append, upTo, if_pos, after_cons, ih]
    rw [offset_after, String.utf8Len_cons]
    omega

theorem ofOffset_after {text : String} {before : List Char} (within : before <+: text.toList) :
    ofOffset text (start.after before).offset = start.after before := by
  obtain ⟨rest, all⟩ := within
  rw [ofOffset, ← all, upTo_after]

end Position

namespace Span

/-- A span that begins at a point of a text, and has the line and the column of that point. -/
def Opens (text : List Char) (s : Span) : Prop :=
  ∃ before, before <+: text ∧ Position.start.after before = ⟨s.start, s.line, s.column⟩

variable {text : List Char} {s : Span}

theorem Placed.opens (h : s.Placed text) : s.Opens text := by
  obtain ⟨before, inside, within, rfl⟩ := h
  exact ⟨before, (List.prefix_append before inside).trans within, rfl⟩

/-- However far a span is drawn out, it begins where it began. -/
theorem Opens.through (h : s.Opens text) (t : Span) : (s.through t).Opens text := h

/-- Looking up where a span begins finds the line and the column that it has. -/
theorem Opens.located {source : String} (h : s.Opens source.toList) :
    Position.ofOffset source s.start = ⟨s.start, s.line, s.column⟩ := by
  obtain ⟨before, within, point⟩ := h
  have found := Position.ofOffset_after within
  rwa [point] at found

end Span

/-! ## What is pointed to -/

/-- The places in which a rule is broken: where, and what else has to do with it. -/
def Violation.spans (v : Violation) : List Span :=
  match v.rule with
  | .jumpOutOfWait _ wait => [v.span, wait]
  | .crossLoopJump _ _ inner => [v.span, inner]
  | _ => [v.span]

theorem Violation.spans_ne_nil (v : Violation) : v.spans ≠ [] := by
  unfold spans
  split <;> exact List.cons_ne_nil _ _

/-- The places that an error names, in order. -/
def CompileError.spans : CompileError → List Span
  | syntactic errors => errors.map SyntaxError.span
  | rules _ violations => violations.flatMap Violation.spans
  | denied _ warnings => warnings.map EmptyWait.span
  | internal _ error => [error.span]

namespace Report

/-- The spans that the labels of a report were made from. -/
def spans (r : Report) : List Span := r.labels.map Label.span

theorem spans_ofViolation (file : Nat) (v : Violation) : (ofViolation file v).spans = v.spans := by
  obtain ⟨rule, span⟩ := v
  cases rule <;> rfl

theorem labels_ofSyntaxError (file : Nat) (e : SyntaxError) :
    (ofSyntaxError file e).labels = [⟨.primary, file, e.span, "here"⟩] := by
  unfold ofSyntaxError
  cases e.suggestion <;> rfl

/-- Every place that an error names has a label, and there are no others. -/
theorem spans_ofCompileError (file : Nat) (e : CompileError) :
    (ofCompileError file e).flatMap spans = e.spans := by
  cases e with
  | syntactic errors =>
    have one (e : SyntaxError) : (ofSyntaxError file e).spans = [e.span] := by
      rw [spans, labels_ofSyntaxError, List.map_singleton]
    rw [ofCompileError, List.flatMap_map, CompileError.spans, List.map_eq_flatMap]
    exact List.flatMap_congr fun e _ => one e
  | rules function violations =>
    rw [ofCompileError, List.flatMap_map, CompileError.spans]
    exact List.flatMap_congr fun v _ => spans_ofViolation file v
  | denied function warnings =>
    rw [ofCompileError, List.flatMap_map, CompileError.spans, List.map_eq_flatMap]
    rfl
  | internal function error => rfl

/-- Every code of an error has a report, and there are no others. -/
theorem codes_ofCompileError (file : Nat) (e : CompileError) :
    (ofCompileError file e).map code = e.codes.map some := by
  cases e with
  | syntactic errors =>
    rw [ofCompileError, CompileError.codes, List.map_map, List.map_map]
    refine List.map_congr_left fun e _ => ?_
    dsimp only [Function.comp_apply, ofSyntaxError]
    cases e.suggestion <;> rfl
  | rules function violations =>
    rw [ofCompileError, CompileError.codes, List.map_map, List.map_map]
    refine List.map_congr_left fun v _ => ?_
    obtain ⟨rule, span⟩ := v
    cases rule <;> rfl
  | denied function warnings =>
    rw [ofCompileError, CompileError.codes, List.map_map, List.map_map]
    rfl
  | internal function error => rfl

theorem ofCompileError_ne_nil (file : Nat) {e : CompileError} (places : e.spans ≠ []) :
    ofCompileError file e ≠ [] := by
  intro nothing
  rw [← spans_ofCompileError file e, nothing] at places
  exact places rfl

/-- A report with labels, each at the start of a span of the first file. -/
structure Opens (text : List Char) (r : Report) : Prop where
  labelled : r.labels ≠ []
  labels : ∀ l ∈ r.labels, l.file = 0 ∧ l.span.Opens text

variable {text : List Char} {r : Report} {s : Span}

theorem Opens.ofLabels {l : Label} {ls : List Label} (labels : r.labels = l :: ls)
    (opens : ∀ l' ∈ l :: ls, l'.file = 0 ∧ l'.span.Opens text) : r.Opens text :=
  ⟨labels ▸ List.cons_ne_nil l ls, labels ▸ opens⟩

theorem opens_ofViolation {v : Violation} (opens : ∀ s ∈ v.spans, s.Opens text) :
    (ofViolation 0 v).Opens text := by
  obtain ⟨rule, span⟩ := v
  cases rule with
  | jumpOutOfWait kind other | crossLoopJump kind label other =>
    have first : span.Opens text := opens _ List.mem_cons_self
    have second : other.Opens text := opens _ (List.mem_cons_of_mem _ List.mem_cons_self)
    apply Opens.ofLabels rfl
    exact List.forall_mem_cons.mpr ⟨⟨rfl, first⟩, List.forall_mem_singleton.mpr ⟨rfl, second⟩⟩
  | _ =>
    have first : span.Opens text := opens _ List.mem_cons_self
    apply Opens.ofLabels rfl
    exact List.forall_mem_singleton.mpr ⟨rfl, first⟩

theorem opens_ofWarning {w : EmptyWait} (denied : Bool) (opens : w.span.Opens text) :
    (ofWarning 0 denied w).Opens text := by
  apply Opens.ofLabels rfl
  exact List.forall_mem_singleton.mpr ⟨rfl, opens⟩

theorem opens_ofSyntaxError {e : SyntaxError} (opens : e.span.Opens text) :
    (ofSyntaxError 0 e).Opens text := by
  apply Opens.ofLabels (labels_ofSyntaxError 0 e)
  exact List.forall_mem_singleton.mpr ⟨rfl, opens⟩

theorem opens_ofCompileError {e : CompileError} (opens : ∀ s ∈ e.spans, s.Opens text) :
    ∀ r ∈ ofCompileError 0 e, r.Opens text := by
  cases e with
  | syntactic errors =>
    exact List.forall_mem_map.mpr fun e he => opens_ofSyntaxError (opens _ (List.mem_map_of_mem he))
  | rules function violations =>
    refine List.forall_mem_map.mpr fun v hv => opens_ofViolation ?_
    intro s hs
    exact opens s (List.mem_flatMap.mpr ⟨v, hv, hs⟩)
  | denied function warnings =>
    exact List.forall_mem_map.mpr fun w hw =>
      opens_ofWarning true (opens _ (List.mem_map_of_mem hw))
  | internal function error =>
    refine List.forall_mem_singleton.mpr (Opens.ofLabels rfl ?_)
    exact List.forall_mem_singleton.mpr ⟨rfl, opens _ List.mem_cons_self⟩

end Report

/-! ## Where it is drawn -/

/-- A label as JSON, in the line and the column of its span; only its end is looked up. -/
def Label.json (file : SourceFile) (l : Label) : Json :=
  let stop := Position.ofOffset file.text l.span.stop
  .obj [("file", .str file.name), ("start_line", .nat l.span.line),
    ("start_column", .nat l.span.column), ("end_line", .nat stop.line),
    ("end_column", .nat stop.column), ("message", .str l.message), ("style", .str l.style.text)]

/-- A report about a file with at least one label. As JSON it has all of them, each in the line and
the column that the span it was made from has. -/
structure Report.Points (file : SourceFile) (r : Report) : Prop where
  labelled : r.labels ≠ []
  json : r.toJson [file] = .obj [("code", .optional .str r.code), ("severity", .str r.level.text),
    ("message", .str r.message), ("labels", .arr (r.labels.map (Label.json file))),
    ("notes", .list .str r.notes)]

/-- Labels are drawn where their spans say if these begin in the text. -/
theorem Report.Opens.points {file : SourceFile} {r : Report} (h : r.Opens file.text.toList) :
    r.Points file := by
  have drawn : r.labels.filterMap (labelJson? [file]) = r.labels.map (Label.json file) := by
    rw [← List.filterMap_eq_map]
    apply List.filterMap_congr
    intro l hl
    obtain ⟨first, opens⟩ := h.labels l hl
    have here : [file][l.file]? = some file := by rw [first]; rfl
    simp only [labelJson?, here, opens.located]
    rfl
  exact ⟨h.labelled, by rw [toJson, drawn]⟩

/-- An error is reported: there is a report for each of its codes, the labels are made from just the
places that it names, and all are drawn where these are. -/
structure CompileError.ReportedIn (file : SourceFile) (e : CompileError) : Prop where
  reports : Report.ofCompileError 0 e ≠ []
  codes : (Report.ofCompileError 0 e).map Report.code = e.codes.map some
  spans : (Report.ofCompileError 0 e).flatMap Report.spans = e.spans
  points : ∀ r ∈ Report.ofCompileError 0 e, r.Points file

/-- A warning is reported: it has a label for the place that it names and no other, which is drawn
where this is. -/
structure EmptyWait.ReportedIn (file : SourceFile) (w : EmptyWait) : Prop where
  code : (Report.ofWarning 0 false w).code = some EmptyWait.code
  spans : (Report.ofWarning 0 false w).spans = [w.span]
  points : (Report.ofWarning 0 false w).Points file

/-- Errors that name places in a text are reported there. -/
theorem CompileError.reportedIn {file : SourceFile} {e : CompileError} (places : e.spans ≠ [])
    (opens : ∀ s ∈ e.spans, s.Opens file.text.toList) : e.ReportedIn file :=
  ⟨Report.ofCompileError_ne_nil 0 places, Report.codes_ofCompileError 0 e,
    Report.spans_ofCompileError 0 e, fun r hr => (Report.opens_ofCompileError opens r hr).points⟩

theorem EmptyWait.reportedIn {file : SourceFile} {w : EmptyWait}
    (opens : w.span.Opens file.text.toList) : w.ReportedIn file :=
  ⟨rfl, rfl, (Report.opens_ofWarning false opens).points⟩

end WaitDefer

import RefSugar.Proofs.Layout
import RefSugar.Proofs.Placement
import RefSugar.Walk.Run

/-! The edits that a run issues for its events. An edit that does nothing is not issued, and all
positions move by the place of the unit in its document. -/
namespace RefSugar

open Syntax (Span)

variable {e : Edit} {p : Nat}

namespace Edit

def shift (base : Nat) : Edit → Edit
  | .insertBefore pos text => .insertBefore (base + pos) text
  | .insertAfter pos text => .insertAfter (base + pos) text
  | .remove start stop => .remove (base + start) (base + stop)
  | .overwrite start stop text => .overwrite (base + start) (base + stop) text

theorem shift_ends (base : Nat) (e : Edit) :
    (e.shift base).start = base + e.start ∧ (e.shift base).stop = base + e.stop := by
  cases e <;> exact ⟨rfl, rfl⟩

theorem shift_zero (e : Edit) : e.shift 0 = e := by
  cases e <;> simp [shift]

theorem shift_shift (n m : Nat) (e : Edit) : (e.shift m).shift n = e.shift (n + m) := by
  cases e <;> simp [shift, Nat.add_assoc]

theorem emit_edits (em : Emitter) (horigin : em.origin = 0) (e : Edit) :
    (em.emit e).edits.edits = em.edits.edits ++ (e.shift em.base).issued := by
  cases e <;> simp [Emitter.emit, Emitter.offset, horigin, issue_edits, shift]

theorem ranges_issued (e : Edit) : e.issued.flatMap ranges = e.ranges.filter Span.isFilled := by
  rcases e.issued_cases with ⟨hfilled, hissued⟩ | ⟨hvoid, hissued | ⟨start, stop, text, rfl, hissued⟩⟩
  · cases e <;> simp_all [isFilled, Span.isFilled]
  · cases e <;> simp_all [isFilled, Span.isFilled]
  · rw [hissued]
    simpa [isFilled, Span.isFilled] using hvoid

/-- An overwriting of nothing inserts where it stands. -/
theorem points_issued (hp : p ∈ e.issued.flatMap points) :
    p ∈ e.points ∨ ∃ r ∈ e.ranges, ¬ r.lo < r.hi ∧ p = r.lo := by
  obtain ⟨e', he', hpoint⟩ := List.mem_flatMap.mp hp
  rcases mem_issued he' with ⟨rfl, _⟩ | ⟨start, stop, text, rfl, hlt, rfl⟩
  · exact .inl hpoint
  · exact .inr ⟨⟨start, stop⟩, by simp, hlt, by simpa using hpoint⟩

theorem ranges_shift (base : Nat) (e : Edit) :
    (e.shift base).ranges = e.ranges.map (Span.shift base) := by
  cases e <;> rfl

theorem points_shift (base : Nat) (e : Edit) :
    (e.shift base).points = e.points.map (base + ·) := by
  cases e <;> rfl

theorem ranges_emitted (base : Nat) (e : Edit) :
    (e.shift base).issued.flatMap ranges = (e.ranges.filter Span.isFilled).map (Span.shift base) := by
  rw [ranges_issued, ranges_shift, List.filter_map]
  congr 2
  funext a
  simp [Span.isFilled, Span.shift]

theorem points_emitted {base : Nat} (hfilled : ∀ r ∈ e.ranges, r.lo < r.hi)
    (hp : p ∈ (e.shift base).issued.flatMap points) : ∃ q ∈ e.points, p = base + q := by
  rcases points_issued hp with hp | ⟨r, hr, hempty, _⟩
  · rw [points_shift] at hp
    obtain ⟨q, hq, rfl⟩ := List.mem_map.mp hp
    exact ⟨q, hq, rfl⟩
  · rw [ranges_shift] at hr
    obtain ⟨a, ha, rfl⟩ := List.mem_map.mp hr
    have := hfilled a ha
    exact absurd (by simp only [Span.shift]; omega) hempty

end Edit

namespace Session

/-- The primitives that a unit imports: those it calls that no unit before it imports. With
declarations nothing is imported. -/
def missing (o : Options) (s : Session) (called : List Primitive) : List Primitive :=
  if o.declarations then []
  else Primitive.all.filter fun p => called.contains p && !s.imported.contains p

theorem missing_nil (o : Options) (s : Session) : s.missing o [] = [] := by
  simp [missing]

def importText (o : Options) (ps : List Primitive) : String :=
  "import \x7b " ++ ", ".intercalate (ps.map Primitive.specifier) ++ " \x7d from '" ++
    o.runtimeModule ++ "';\n"

def importEdits (o : Options) (pos : Nat) (ps : List Primitive) : List Edit :=
  if ps.isEmpty then [] else [.insertAfter pos (importText o ps)]

theorem importStatement_eq {o : Options} (h : o.declarations = false) (s : Session)
    (called : List Primitive) :
    s.importStatement called o.runtimeModule =
      if (s.missing o called).isEmpty then (none, s)
      else (some (importText o (s.missing o called)),
        { s with imported := s.imported ++ s.missing o called }) := by
  simp only [importStatement, missing, h, Bool.false_eq_true, if_false]
  rfl

theorem mem_importEdits {o : Options} {pos : Nat} {ps : List Primitive}
    (h : e ∈ importEdits o pos ps) : ps ≠ [] ∧ e = .insertAfter pos (importText o ps) := by
  unfold importEdits at h
  split at h
  · cases h
  · rename_i hps
    exact ⟨fun hnil => hps (by simp [hnil]), List.mem_singleton.mp h⟩

end Session

namespace Walk.Run

variable {source : List Char}

theorem unwraps_eq (names : List String) (frame : Nat) (r : Run) :
    names.foldl (fun r name => r.unwrap frame name) r =
      { r with
        scopes := names.foldl (fun s name => s.declareUnwrap frame name) r.scopes
        unwrapped := r.unwrapped ++ names.map fun name => { name, frame } } := by
  induction names generalizing r with
  | nil => simp
  | cons name names ih =>
    rw [List.foldl_cons, ih]
    simp [unwrap]

theorem knowns_eq (names : List String) (frame : Nat) (r : Run) :
    names.foldl (fun r name => r.known frame name) r =
      { r with scopes := names.foldl (fun s name => s.declareKnown frame name) r.scopes } := by
  induction names generalizing r with
  | nil => rfl
  | cons name names ih =>
    rw [List.foldl_cons, ih]
    rfl

/-- All that unpacking changes. -/
theorem unpack_eq (r : Run) (frame : Nat) (plan : Unpack.Plan) (stop : Nat) :
    r.unpack source frame plan stop =
      { r with
        emitter := [.overwrite plan.span.lo plan.span.hi r.session.freshTemp.1,
          .insertAfter stop (plan.render source r.session.freshTemp.1)].foldl Emitter.emit r.emitter
        scopes := plan.restName?.toList.foldl (fun s name => s.declareKnown frame name)
          (plan.fieldNames.foldl (fun s name => s.declareUnwrap frame name) r.scopes)
        session := r.session.freshTemp.2
        unwrapped := r.unwrapped ++ plan.fieldNames.map fun name => { name, frame }
        called := r.called ++ plan.primitives } := by
  simp only [unpack, knowns_eq, unwraps_eq]
  rfl

def issuedAt (base : Nat) (edits : List Edit) : List Edit :=
  edits.flatMap fun e => (e.shift base).issued

@[simp] theorem issuedAt_append (base : Nat) (edits more : List Edit) :
    issuedAt base (edits ++ more) = issuedAt base edits ++ issuedAt base more :=
  List.flatMap_append

theorem emit_all_edits (edits : List Edit) (em : Emitter) (horigin : em.origin = 0) :
    (edits.foldl Emitter.emit em).edits.edits = em.edits.edits ++ issuedAt em.base edits ∧
      (edits.foldl Emitter.emit em).base = em.base ∧ (edits.foldl Emitter.emit em).origin = 0 := by
  induction edits generalizing em with
  | nil => simp [issuedAt, horigin]
  | cons e edits ih =>
    obtain ⟨hedits, hbase, ho⟩ := ih (em.emit e) horigin
    refine ⟨?_, hbase, ho⟩
    rw [List.foldl_cons, hedits, Edit.emit_edits em horigin]
    simp [issuedAt, Emitter.emit]

end Walk.Run

namespace Walk

/-- The edits of an event; `temp` is the temporary that takes the place of a pattern. -/
def Event.edits (source : List Char) (temp : String) : Event → List Edit
  | .edit e => [e]
  | .unpack _ plan stop =>
    [.overwrite plan.span.lo plan.span.hi temp, .insertAfter stop (plan.render source temp)]
  | _ => []

theorem Event.ranges_edits (source : List Char) (temp : String) (event : Event) :
    (event.edits source temp).flatMap Edit.ranges = event.ranges := by
  cases event <;> simp [edits, ranges]

inductive Emits (source : List Char) : List Event → List Edit → Prop
  | nil : Emits source [] []
  | cons {event : Event} {events : List Event} {edits : List Edit} (temp : String)
    (h : Emits source events edits) :
    Emits source (event :: events) (event.edits source temp ++ edits)

namespace Emits

variable {source : List Char} {events : List Event} {edits : List Edit}

theorem ranges (h : Emits source events edits) : edits.flatMap Edit.ranges = rangesOf events := by
  induction h with
  | nil => rfl
  | cons temp _ ih => rw [List.flatMap_append, Event.ranges_edits, ih, rangesOf_cons]

theorem exists_event (h : Emits source events edits) (he : e ∈ edits) :
    ∃ event ∈ events, ∃ temp, e ∈ event.edits source temp := by
  induction h with
  | nil => cases he
  | @cons event _ _ temp _ ih =>
    rcases List.mem_append.mp he with he | he
    · exact ⟨event, by simp, temp, he⟩
    · obtain ⟨other, hother, h⟩ := ih he
      exact ⟨other, by simp [hother], h⟩

theorem edit_mem (h : Emits source events edits) (he : .edit e ∈ events) : e ∈ edits := by
  induction h with
  | nil => cases he
  | cons temp _ ih =>
    rcases List.mem_cons.mp he with rfl | he
    · exact List.mem_append_left _ (List.mem_singleton_self e)
    · exact List.mem_append_right _ (ih he)

/-- What is read off the edits of each event can be read off all of them. -/
theorem flatMap_sublist {β : Type} {f : Edit → List β} {g : Event → List β}
    (h : Emits source events edits)
    (hone : ∀ event ∈ events, ∀ temp, ((event.edits source temp).flatMap f).Sublist (g event)) :
    (edits.flatMap f).Sublist (events.flatMap g) := by
  induction h with
  | nil => exact .slnil
  | @cons event _ _ temp _ ih =>
    rw [List.flatMap_append, List.flatMap_cons]
    exact (hone event (by simp) temp).append (ih fun other hother => hone other (by simp [hother]))

end Emits

theorem Event.points_edits {source : List Char} {temp : String} {event : Event}
    (he : e ∈ event.edits source temp) : e.points ⊆ event.points := by
  cases event <;> simp_all [edits, points]
  rcases he with rfl | rfl <;> simp

namespace Run

variable {source : List Char}

/-- The run issues the edits of its event at the place of its unit, with the next temporary. -/
theorem step_edits (r : Run) (horigin : r.emitter.origin = 0) (event : Event) :
    (r.step source event).emitter.edits.edits = r.emitter.edits.edits ++
        issuedAt r.emitter.base (event.edits source (Session.tempName r.session.nextTemp)) ∧
      (r.step source event).emitter.base = r.emitter.base ∧
      (r.step source event).emitter.origin = 0 := by
  cases event with
  | edit e => exact emit_all_edits [e] r.emitter horigin
  | unpack place plan stop =>
    rw [step, unpack_eq]
    exact emit_all_edits _ r.emitter horigin
  | _ => simp [step, known, unwrap, refer, Event.edits, issuedAt, horigin]

/-- A run issues the edits of all its events, one after another. -/
theorem steps_edits (events : List Event) (r : Run) (horigin : r.emitter.origin = 0) :
    ∃ emitted : List Edit,
      (r.steps source events).emitter.edits.edits =
        r.emitter.edits.edits ++ issuedAt r.emitter.base emitted ∧
      (r.steps source events).emitter.base = r.emitter.base ∧
      (r.steps source events).emitter.origin = 0 ∧ Emits source events emitted := by
  induction events generalizing r with
  | nil => exact ⟨[], by simp [steps, issuedAt, horigin, Emits.nil]⟩
  | cons event events ih =>
    obtain ⟨hstep, hbase, ho⟩ := @step_edits source r horigin event
    obtain ⟨emitted, hedits, hbase', ho', hemits⟩ := ih (r.step source event) ho
    refine ⟨_, ?_, hbase'.trans hbase, ho', .cons (Session.tempName r.session.nextTemp) hemits⟩
    rw [steps, List.foldl_cons, ← steps, hedits, hstep, hbase, issuedAt_append, List.append_assoc]

theorem step_references (r : Run) (event : Event) :
    (r.step source event).references.map Reference.span =
      r.references.map Reference.span ++ event.names := by
  cases event with
  | mention m => simp [step, refer, Event.names]
  | unpack place plan stop =>
    rw [step, unpack_eq]
    simp [Event.names]
  | _ => simp [step, emit, known, unwrap, Event.names]

theorem steps_references (events : List Event) (r : Run) :
    (r.steps source events).references.map Reference.span =
      r.references.map Reference.span ++ namesOf events := by
  induction events generalizing r with
  | nil => simp [steps]
  | cons event events ih =>
    rw [steps, List.foldl_cons, ← steps, ih, step_references, namesOf_cons, List.append_assoc]

/-- The edits that append values when all declarations are known. -/
def resolved (o : Options) (r : Run) : List Edit :=
  r.references.flatMap fun ref =>
    ref.editsFor (ref.classify r.scopes.leave r.marked o.resolution)

/-- Resolving appends the edits of the references, in their order. -/
theorem resolveAll_edits (scopes : Scopes) (marked : List Span) (resolution : Resolution)
    (refs : List Reference) (em : Emitter) (horigin : em.origin = 0) :
    (Reference.resolveAll scopes marked resolution refs em).edits.edits =
        em.edits.edits ++ issuedAt em.base
          (refs.flatMap fun ref => ref.editsFor (ref.classify scopes marked resolution)) ∧
      (Reference.resolveAll scopes marked resolution refs em).base = em.base := by
  have h : Reference.resolveAll scopes marked resolution refs em =
      (refs.flatMap fun ref => ref.editsFor (ref.classify scopes marked resolution)).foldl
        Emitter.emit em := by
    rw [Reference.resolveAll, List.foldl_flatMap]
  rw [h]
  exact ⟨(emit_all_edits _ em horigin).1, (emit_all_edits _ em horigin).2.1⟩

/-- What a run comes to: its own edits, the values, and the import of what it calls. -/
theorem finish_imports (o : Options) (r : Run) (horigin : r.emitter.origin = 0) :
    (r.finish o).edits.edits = r.emitter.edits.edits ++ issuedAt r.emitter.base (r.resolved o) ++
        Session.importEdits o r.emitter.base (r.session.missing o r.called) ∧
      (r.finish o).session =
        { r.session with imported := r.session.imported ++ r.session.missing o r.called } := by
  obtain ⟨hedits, hbase⟩ := resolveAll_edits r.scopes.leave r.marked o.resolution r.references
    r.emitter horigin
  unfold finish
  dsimp only
  by_cases hdeclarations : o.declarations = true
  · have hnone : r.session.missing o r.called = [] := by simp [Session.missing, hdeclarations]
    rw [hnone, if_pos hdeclarations]
    simpa [Session.importEdits, resolved] using hedits
  · rw [if_neg hdeclarations, Session.importStatement_eq (by simpa using hdeclarations)]
    by_cases hempty : (r.session.missing o r.called).isEmpty = true
    · rw [if_pos hempty, List.isEmpty_iff.mp hempty]
      simpa [Session.importEdits, resolved] using hedits
    · have hfilled : (Edit.insertAfter r.emitter.base
          (Session.importText o (r.session.missing o r.called))).isFilled = true := by
        simp [Edit.isFilled, Session.importText]
      have hissue := Edit.issue_edits (Reference.resolveAll r.scopes.leave r.marked o.resolution
        r.references r.emitter).edits (.insertAfter r.emitter.base
          (Session.importText o (r.session.missing o r.called)))
      rw [hedits, Edit.issued_of_isFilled hfilled] at hissue
      rw [if_neg hempty, Session.importEdits, if_neg hempty]
      refine ⟨?_, rfl⟩
      dsimp only
      rw [Emitter.prepend, hbase]
      exact hissue

/-- What a run comes to: its own edits, the values, and at most an import in front. -/
theorem finish_edits (o : Options) (r : Run) (horigin : r.emitter.origin = 0) :
    ∃ imports : List Edit,
      (r.finish o).edits.edits =
        r.emitter.edits.edits ++ issuedAt r.emitter.base (r.resolved o) ++ imports ∧
      ∀ e ∈ imports, ∃ statement session,
        r.session.importStatement r.called o.runtimeModule = (some statement, session) ∧
        e = .insertAfter r.emitter.base statement := by
  refine ⟨_, (finish_imports o r horigin).1, fun e he => ?_⟩
  obtain ⟨hsome, rfl⟩ := Session.mem_importEdits he
  have hdeclarations : o.declarations = false := by
    refine Bool.eq_false_iff.mpr fun h => hsome ?_
    simp [Session.missing, h]
  rw [Session.importStatement_eq hdeclarations, if_neg (by simpa using hsome)]
  exact ⟨_, _, rfl, rfl⟩

theorem ranges_issuedAt (base : Nat) (edits : List Edit) :
    (issuedAt base edits).flatMap Edit.ranges =
      ((edits.flatMap Edit.ranges).filter Span.isFilled).map (Span.shift base) := by
  induction edits with
  | nil => rfl
  | cons e edits ih =>
    rw [List.flatMap_cons, List.filter_append, List.map_append, ← ih, ← Edit.ranges_emitted,
      ← List.flatMap_append]
    rfl

theorem points_issuedAt {base : Nat} {edits : List Edit}
    (hfilled : ∀ r ∈ edits.flatMap Edit.ranges, r.lo < r.hi)
    (hp : p ∈ (issuedAt base edits).flatMap Edit.points) :
    ∃ e ∈ edits, ∃ q ∈ e.points, p = base + q := by
  obtain ⟨e', he', hp⟩ := List.mem_flatMap.mp hp
  obtain ⟨e, he, he'⟩ := List.mem_flatMap.mp he'
  obtain ⟨q, hq, rfl⟩ := Edit.points_emitted
    (fun r hr => hfilled r (List.mem_flatMap.mpr ⟨e, he, hr⟩)) (List.mem_flatMap.mpr ⟨e', he', hp⟩)
  exact ⟨e, he, q, hq, rfl⟩

theorem ranges_resolved (o : Options) (r : Run) : (r.resolved o).flatMap Edit.ranges = [] := by
  rw [List.flatMap_eq_nil_iff]
  intro e he
  obtain ⟨ref, _, he⟩ := List.mem_flatMap.mp he
  cases h : ref.classify r.scopes.leave r.marked o.resolution <;>
    simp [h, Reference.editsFor] at he
  · simp [he]
  · simp [he]
  · rcases he with rfl | rfl <;> rfl

/-- A value is appended at an end of a reference. -/
theorem points_resolved {o : Options} {r : Run} (he : e ∈ r.resolved o) :
    ∃ a ∈ r.references.map Reference.span, e.points ⊆ [a.lo, a.hi] := by
  obtain ⟨ref, href, he⟩ := List.mem_flatMap.mp he
  refine ⟨ref.span, List.mem_map_of_mem href, ?_⟩
  cases h : ref.classify r.scopes.leave r.marked o.resolution <;>
    simp [h, Reference.editsFor] at he
  · simp [he]
  · simp [he]
  · rcases he with rfl | rfl <;> simp

end Run

section Scripts

variable (o : Options) (session : Session) (base : Nat) (source : List Char) (stmts : List Syntax.Stmt)

def scriptRun : Run :=
  (Run.start base .program session).steps source (traceStmts (setting o source) stmts)

theorem scriptRun_edits : ∃ emitted : List Edit,
    (scriptRun o session base source stmts).emitter.edits.edits = Run.issuedAt base emitted ∧
    (scriptRun o session base source stmts).emitter.base = base ∧
    (scriptRun o session base source stmts).emitter.origin = 0 ∧
    Emits source (traceStmts (setting o source) stmts) emitted :=
  Run.steps_edits (traceStmts (setting o source) stmts) (.start base .program session) rfl

theorem scriptRun_references :
    (scriptRun o session base source stmts).references.map Reference.span =
      namesOf (traceStmts (setting o source) stmts) :=
  Run.steps_references (traceStmts (setting o source) stmts) (.start base .program session)

/-- The edits of a script: those of its events, the values, and at most an import in front. -/
theorem script_emits : ∃ emitted imports : List Edit,
    (script o session base source stmts).edits.edits =
      Run.issuedAt base emitted ++
        Run.issuedAt base ((scriptRun o session base source stmts).resolved o) ++ imports ∧
    Emits source (traceStmts (setting o source) stmts) emitted ∧
    ∀ e ∈ imports, ∃ statement new,
      (scriptRun o session base source stmts).session.importStatement
        (scriptRun o session base source stmts).called o.runtimeModule = (some statement, new) ∧
      e = .insertAfter base statement := by
  obtain ⟨emitted, hedits, hbase, horigin, hemits⟩ := scriptRun_edits o session base source stmts
  obtain ⟨imports, hfinish, himports⟩ := Run.finish_edits o _ horigin
  rw [hedits, hbase] at hfinish
  refine ⟨emitted, imports, hfinish, hemits, ?_⟩
  intro e he
  obtain ⟨statement, new, himport, rfl⟩ := himports e he
  exact ⟨statement, new, himport, by rw [hbase]⟩

/-- The edits of a script: those of its events, the values, and the import. -/
theorem script_edits : ∃ emitted imports : List Edit,
    (script o session base source stmts).edits.edits =
      Run.issuedAt base emitted ++
        Run.issuedAt base ((scriptRun o session base source stmts).resolved o) ++ imports ∧
    emitted.flatMap Edit.ranges = rangesOf (traceStmts (setting o source) stmts) ∧
    (∀ e ∈ emitted, ∃ event ∈ traceStmts (setting o source) stmts, ∃ temp,
      e ∈ event.edits source temp) ∧
    ∀ e ∈ imports, ∃ statement new,
      (scriptRun o session base source stmts).session.importStatement
        (scriptRun o session base source stmts).called o.runtimeModule = (some statement, new) ∧
      e = .insertAfter base statement := by
  obtain ⟨emitted, imports, hedits, hemits, himports⟩ := script_emits o session base source stmts
  exact ⟨emitted, imports, hedits, hemits.ranges, fun e he => hemits.exists_event he, himports⟩

/-- A script takes away what its events tell, moved to the place of the script. -/
theorem script_ranges :
    (script o session base source stmts).edits.edits.flatMap Edit.ranges =
      ((rangesOf (traceStmts (setting o source) stmts)).filter Span.isFilled).map
        (Span.shift base) := by
  obtain ⟨emitted, imports, hedits, hranges, _, himports⟩ := script_edits o session base source stmts
  have hnone : imports.flatMap Edit.ranges = [] := by
    rw [List.flatMap_eq_nil_iff]
    intro e he
    obtain ⟨_, _, _, rfl⟩ := himports e he
    rfl
  rw [hedits, List.flatMap_append, List.flatMap_append, hnone, Run.ranges_issuedAt,
    Run.ranges_issuedAt, Run.ranges_resolved, hranges]
  simp

/-- A script inserts where its events tell, or in front of everything. -/
theorem script_points (hfilled : ∀ r ∈ rangesOf (traceStmts (setting o source) stmts), r.lo < r.hi)
    (hp : p ∈ (script o session base source stmts).edits.edits.flatMap Edit.points) :
    p = base ∨ ∃ q ∈ pointsOf (traceStmts (setting o source) stmts), p = base + q := by
  obtain ⟨emitted, imports, hedits, hranges, hevents, himports⟩ :=
    script_edits o session base source stmts
  rw [hedits, List.flatMap_append, List.flatMap_append, List.mem_append, List.mem_append] at hp
  rcases hp with (hp | hp) | hp
  · obtain ⟨e, he, q, hq, rfl⟩ := Run.points_issuedAt (by rwa [hranges]) hp
    obtain ⟨event, hevent, temp, he⟩ := hevents e he
    exact .inr ⟨q, List.mem_flatMap.mpr ⟨event, hevent, Event.points_edits he hq⟩, rfl⟩
  · obtain ⟨e, he, q, hq, rfl⟩ := Run.points_issuedAt (by simp [Run.ranges_resolved]) hp
    obtain ⟨a, ha, hsub⟩ := Run.points_resolved he
    rw [scriptRun_references] at ha
    obtain ⟨event, hevent, ha⟩ := List.mem_flatMap.mp ha
    refine .inr ⟨q, List.mem_flatMap.mpr ⟨event, hevent, ?_⟩, rfl⟩
    have hq := hsub hq
    cases event <;> simp_all [Event.names, Event.points]
  · obtain ⟨e, he, hp⟩ := List.mem_flatMap.mp hp
    obtain ⟨_, _, _, rfl⟩ := himports e he
    exact .inl (by simpa using hp)

/-- What a script edits stays inside the script and is as tidy as its events. -/
theorem script_tidy {twice ok : Nat → Prop} {width : Nat} (hstart : ok 0) (hstop : ok width)
    (h : Tidy twice ok [⟨0, width⟩] (rangesOf (traceStmts (setting o source) stmts))
      (pointsOf (traceStmts (setting o source) stmts))) :
    Tidy (fun p => ∃ q, p = base + q ∧ twice q) (fun p => ∃ q, p = base + q ∧ ok q)
      [⟨base, base + width⟩]
      ((script o session base source stmts).edits.edits.flatMap Edit.ranges)
      ((script o session base source stmts).edits.edits.flatMap Edit.points) := by
  have hfilter : (rangesOf (traceStmts (setting o source) stmts)).filter Span.isFilled =
      rangesOf (traceStmts (setting o source) stmts) :=
    List.filter_eq_self.mpr fun r hr => Span.isFilled_iff.mpr (h.range_filled r hr)
  rw [script_ranges, hfilter]
  refine ((h.ends (Nat.zero_le width) hstart hstop).shift base).of_points ?_
  intro p hp
  rcases script_points o session base source stmts h.range_filled hp with rfl | ⟨q, hq, rfl⟩
  · simp
  · exact List.mem_map.mpr ⟨q, by simp [hq], rfl⟩

end Scripts

end Walk

end RefSugar

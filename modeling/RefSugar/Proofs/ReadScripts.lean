import RefSugar.Proofs.EventOffsets
import RefSugar.Proofs.Parsing
import RefSugar.Proofs.WalkEdits

/-! Scripts that have been read. The names and expressions of a parsed module stand in its text, so
what a walk over the module edits stays inside the text; and where the script stands in its document
only moves the edits. -/
namespace RefSugar

open Syntax

namespace Walk

section Offsets

variable {ok : Nat → Prop} {text : List Char}

theorem cutsName_of_stands (hok : ∀ p, Cuts text p → ok p) {id : Ident} (h : Stands text id) :
    CutsName ok id :=
  ⟨hok _ h.cuts_lo, hok _ h.cuts_hi, fun hsigil => hok _ (h.cuts_sigil hsigil)⟩

theorem cutsPattern_of_written (hok : ∀ p, Cuts text p → ok p) {p : Pattern}
    (h : Written text (.pattern p)) : CutsPattern ok p := by
  cases p with
  | name id => exact cutsName_of_stands hok h.stands
  | object span fields | array span items => exact ⟨hok _ h.cuts_lo, hok _ h.cuts_hi⟩
  | _ => trivial

/-- What is written in the text can be cut out of it. -/
theorem cutsAt_of_sited (hok : ∀ p, Cuts text p → ok p) {n : Node} (h : Sited text n) :
    CutsAt ok n := by
  have hhere := h.here
  have hname {id : Ident} (h : Spelled text id) : CutsName ok id := cutsName_of_stands hok h.stands
  have hends {span : Span} (h : span.Sited text) : ok span.lo ∧ ok span.hi :=
    ⟨hok _ h.cuts_lo, hok _ h.cuts_hi⟩
  cases n with
  | expr e =>
    cases e with
    | name id => exact hname hhere
    | field span link object | index span link object key | call span link callee args
    | keywordCall span args => exact hends hhere
    | wrapped span kind inner =>
      cases kind with
      | instantiation => exact hends hhere
      | _ => trivial
    | _ => trivial
  | property p =>
    cases p with
    | shorthand id => exact hname hhere
    | _ => trivial
  | pattern p => exact cutsPattern_of_written hok hhere
  | field f =>
    cases f with
    | shorthand id value => exact hname hhere
    | _ => trivial
  | attr a =>
    cases a with
    | named name braced value =>
      cases name with
      | plain id => exact cutsName_of_stands hok hhere.1
      | qualified span space => trivial
    | spread e => trivial
  | stmt st =>
    cases st with
    | function span name fn => exact hname hhere
    | _ => trivial
  | declarator d =>
    obtain ⟨span, target, init⟩ := d
    have htarget : Sited text (.pattern target) := h.child (by simp)
    exact ⟨hok _ hhere, cutsPattern_of_written hok htarget.here⟩
  | _ => trivial

theorem cutNode_of_sited (hok : ∀ p, Cuts text p → ok p) {n : Node} (h : Sited text n) :
    CutNode ok n :=
  Node.everywhere_of_reaches (fun _ _ => Node.sizeOf_lt_of_mem_children) n fun _ hm =>
    cutsAt_of_sited hok (h.reached hm)

end Offsets

end Walk

namespace Edit

/-- An edit that is issued starts where it did, and ends there or where it did. -/
theorem issued_ends {e e' : Edit} (h : e' ∈ e.issued) :
    e'.start = e.start ∧ (e'.stop = e.start ∨ e'.stop = e.stop) ∧ e'.start ≤ e'.stop := by
  rcases mem_issued h with ⟨rfl, hfilled⟩ | ⟨lo, hi, text, rfl, _, rfl⟩
  · refine ⟨rfl, .inr rfl, ?_⟩
    cases e' with
    | insertBefore | insertAfter => exact Nat.le_refl _
    | remove lo hi | overwrite lo hi text => exact Nat.le_of_lt (of_decide_eq_true hfilled)
  · exact ⟨rfl, .inl rfl, Nat.le_refl _⟩

theorem shift_issued (base : Nat) (e : Edit) :
    e.issued.map (shift base) = (e.shift base).issued := by
  cases e <;> simp only [issued, shift, Nat.add_lt_add_iff_left] <;> (repeat' split) <;> simp [shift]

end Edit

namespace Walk

section Within

variable {o : Options} {session : Session} {base width : Nat} {source : List Char} {stmts : List Stmt}

theorem issuedAt_within {edits : List Edit}
    (h : ∀ e ∈ edits, e.start ≤ width ∧ e.stop ≤ width) :
    ∀ e ∈ Run.issuedAt base edits, base ≤ e.start ∧ e.start ≤ e.stop ∧ e.stop ≤ base + width := by
  intro e' he'
  obtain ⟨e, he, he'⟩ := List.mem_flatMap.mp he'
  obtain ⟨hstart, hstop, hle⟩ := Edit.issued_ends he'
  rw [(Edit.shift_ends base e).1] at hstart hstop
  rw [(Edit.shift_ends base e).2] at hstop
  obtain ⟨hlo, hhi⟩ := h e he
  omega

/-- Events with offsets inside the text make edits inside it. -/
theorem edits_within {ev : Event} (hev : ev.Cut (· ≤ width)) {temp : String} {e : Edit}
    (he : e ∈ ev.edits source temp) : e.start ≤ width ∧ e.stop ≤ width := by
  cases ev with
  | edit e' =>
    obtain rfl := List.mem_singleton.mp he
    obtain ⟨hranges, hpoints⟩ := hev
    cases e <;> simp_all [Event.ranges, Event.points, Edit.start, Edit.stop]
  | unpack place plan stop =>
    have hspan := hev.ranges plan.span (by simp [Event.ranges])
    have hstop := hev.points stop (by simp [Event.points])
    rcases List.mem_cons.mp he with rfl | he
    · exact hspan
    · rw [List.mem_singleton.mp he]
      exact ⟨hstop, hstop⟩
  | _ => cases he

/-- What a script edits lies inside the script. -/
theorem script_within (hcut : ∀ ev ∈ traceStmts (setting o source) stmts, ev.Cut (· ≤ width)) :
    ∀ e ∈ (script o session base source stmts).edits.edits,
      base ≤ e.start ∧ e.start ≤ e.stop ∧ e.stop ≤ base + width := by
  obtain ⟨emitted, imports, hedits, _, hevents, himports⟩ :=
    script_edits o session base source stmts
  rw [hedits]
  intro e he
  rcases List.mem_append.mp he with he | he
  · rcases List.mem_append.mp he with he | he
    · refine issuedAt_within (fun e he => ?_) e he
      obtain ⟨ev, hev, temp, he⟩ := hevents e he
      exact edits_within (hcut ev hev) he
    · refine issuedAt_within (fun e he => ?_) e he
      obtain ⟨a, ha, hpoints⟩ := Run.points_resolved he
      rw [scriptRun_references] at ha
      obtain ⟨ev, hev, ha⟩ := List.mem_flatMap.mp ha
      have hends : a.lo ≤ width ∧ a.hi ≤ width := by
        cases ev with
        | mention m =>
          obtain rfl : a = m.id.span := by simpa [Event.names] using ha
          exact ⟨(hcut _ hev).points _ (by simp [Event.points]),
            (hcut _ hev).points _ (by simp [Event.points])⟩
        | _ => cases ha
      have hnone : e.ranges = [] :=
        List.flatMap_eq_nil_iff.mp (Run.ranges_resolved o (scriptRun o session base source stmts)) e he
      cases e with
      | insertBefore pos text | insertAfter pos text =>
        have hpos : pos = a.lo ∨ pos = a.hi := by simpa using hpoints (a := pos) (by simp)
        simp only [Edit.start, Edit.stop]
        omega
      | remove lo hi | overwrite lo hi text => cases hnone
  · obtain ⟨_, _, _, rfl⟩ := himports e he
    simp only [Edit.start, Edit.stop]
    omega

end Within

end Walk

def EditSet.shift (base : Nat) (s : EditSet) : EditSet :=
  ⟨s.edits.map (Edit.shift base)⟩

def Emitter.moveTo (base : Nat) (em : Emitter) : Emitter :=
  { em with base, edits := em.edits.shift base }

theorem Emitter.emit_moveTo {em : Emitter} (hbase : em.base = 0) (horigin : em.origin = 0)
    (base : Nat) (e : Edit) : (em.moveTo base).emit e = (em.emit e).moveTo base := by
  have hedits : ((em.moveTo base).emit e).edits.edits = ((em.emit e).moveTo base).edits.edits := by
    rw [Edit.emit_edits (em.moveTo base) horigin]
    simp only [moveTo, EditSet.shift]
    rw [Edit.emit_edits em horigin, hbase, Edit.shift_zero, List.map_append, Edit.shift_issued]
  exact congrArg (fun edits => Emitter.mk base em.origin ⟨edits⟩) hedits

theorem Emitter.emitAll_moveTo (base : Nat) (edits : List Edit) {em : Emitter} (hbase : em.base = 0)
    (horigin : em.origin = 0) :
    edits.foldl Emitter.emit (em.moveTo base) = (edits.foldl Emitter.emit em).moveTo base := by
  induction edits generalizing em with
  | nil => rfl
  | cons e edits ih =>
    rw [List.foldl_cons, List.foldl_cons, emit_moveTo hbase horigin]
    exact ih hbase horigin

namespace Walk

def Run.moveTo (base : Nat) (r : Run) : Run :=
  { r with emitter := r.emitter.moveTo base }

def Outcome.moveTo (base : Nat) (out : Outcome) : Outcome :=
  { out with edits := out.edits.shift base }

namespace Run

variable {source : List Char} {r : Run}

theorem emit_moveTo (hbase : r.emitter.base = 0) (horigin : r.emitter.origin = 0) (base : Nat)
    (e : Edit) : (r.moveTo base).emit e = (r.emit e).moveTo base :=
  congrArg (fun em => { r with emitter := em }) (Emitter.emit_moveTo hbase horigin base e)

/-- An event does the same to a run wherever its unit stands. -/
theorem step_moveTo (hbase : r.emitter.base = 0) (horigin : r.emitter.origin = 0) (base : Nat)
    (event : Event) :
    (r.moveTo base).step source event = (r.step source event).moveTo base := by
  cases event with
  | edit e => exact emit_moveTo hbase horigin base e
  | unpack place plan stop =>
    rw [step, step, unpack_eq, unpack_eq]
    simp only [moveTo, Emitter.emitAll_moveTo base _ hbase horigin]
  | _ => rfl

theorem steps_moveTo (base : Nat) (events : List Event) (hbase : r.emitter.base = 0)
    (horigin : r.emitter.origin = 0) :
    (r.moveTo base).steps source events = (r.steps source events).moveTo base := by
  induction events generalizing r with
  | nil => rfl
  | cons event events ih =>
    obtain ⟨_, hbase', horigin'⟩ := @step_edits source r horigin event
    rw [steps, List.foldl_cons, ← steps, step_moveTo hbase horigin]
    exact ih (hbase'.trans hbase) horigin'

theorem prepend_moveTo {em : Emitter} (hbase : em.base = 0) (base : Nat) (text : String) :
    (em.moveTo base).prepend text = (em.prepend text).moveTo base := by
  have hissued := Edit.shift_issued base (.insertAfter 0 text)
  have hedits : ((em.moveTo base).prepend text).edits.edits =
      ((em.prepend text).moveTo base).edits.edits := by
    simp only [Emitter.prepend, Emitter.moveTo, EditSet.shift, hbase]
    rw [← EditSet.issue, ← EditSet.issue, Edit.issue_edits, Edit.issue_edits, List.map_append, hissued]
    rfl
  exact congrArg (fun edits => Emitter.mk base em.origin ⟨edits⟩) hedits

/-- What a unit comes to moves with it. -/
theorem finish_moveTo (hbase : r.emitter.base = 0) (horigin : r.emitter.origin = 0) (base : Nat)
    (o : Options) : (r.moveTo base).finish o = (r.finish o).moveTo base := by
  have hresolve : Reference.resolveAll r.scopes.leave r.marked o.resolution r.references
        (r.emitter.moveTo base) =
      (Reference.resolveAll r.scopes.leave r.marked o.resolution r.references r.emitter).moveTo
        base := by
    simp only [Reference.resolveAll, ← List.foldl_flatMap]
    exact Emitter.emitAll_moveTo base _ hbase horigin
  obtain ⟨_, hbase'⟩ := resolveAll_edits r.scopes.leave r.marked o.resolution r.references
    r.emitter horigin
  unfold finish
  simp only [moveTo, hresolve]
  split
  · rfl
  · split
    · rw [prepend_moveTo (hbase'.trans hbase)]
      rfl
    · rfl

end Run

theorem width_withoutMark_le (text : List Char) :
    Text.width (Text.withoutMark text) ≤ Text.width text := by
  unfold Text.withoutMark
  split
  · split
    · rw [Text.width_cons]
      omega
    · exact Nat.le_refl _
  · exact Nat.le_refl _

/-- The events of a module that has been read speak of offsets inside its text. A byte order mark in
front of the text may move them, but not out of it. -/
theorem parseModule_events_within {o : Options} {dialect : Dialect} {text : List Char}
    {stmts : List Stmt} (h : parseModule dialect text = .ok stmts) :
    ∀ ev ∈ traceStmts (setting o text) stmts, ev.Cut (· ≤ Text.width text) := by
  intro ev hev
  rw [traceStmts_eq] at hev
  obtain ⟨st, hst, hev⟩ := List.mem_flatMap.mp hev
  have hcuts : ∀ p, Cuts (Text.withoutMark text) p → p ≤ Text.width text := fun p hp =>
    Nat.le_trans (Text.isBoundary_le_width hp) (width_withoutMark_le text)
  have hnode : CutNode (· ≤ Text.width text) (.stmt st) :=
    cutNode_of_sited hcuts (parseModule_sited h st hst)
  exact trace_cut (s := setting o text) (v := .stmt st) (fun p hp => Text.isBoundary_le_width hp)
    hnode ev hev

/-- The edits of a script move with it, and nothing else depends on where it stands. -/
theorem script_moveTo (o : Options) (session : Session) (base : Nat) (source : List Char)
    (stmts : List Stmt) :
    script o session base source stmts = (script o session 0 source stmts).moveTo base := by
  have hstart : Run.start base .program session = (Run.start 0 .program session).moveTo base := rfl
  obtain ⟨_, _, hbase, horigin, _⟩ := scriptRun_edits o session 0 source stmts
  rw [script, hstart, Run.steps_moveTo base _ rfl rfl]
  exact Run.finish_moveTo hbase horigin base o

end Walk

end RefSugar

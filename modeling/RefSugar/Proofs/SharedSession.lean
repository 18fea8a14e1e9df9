import Mathlib
import RefSugar.Proofs.AnchoredEdits
import RefSugar.Proofs.Components
import RefSugar.Proofs.Destructuring

/-! What the regions of a document share. The patterns that are unpacked get their temporaries in the
order in which they are met, from the first region to the last, and each primitive is imported once,
where it is called first. Main statement: the edits of a document are those of its patterns, numbered
so, its imports, the declarations behind the last changed region, and others that have nothing to do
with any of these. -/
namespace RefSugar

open Syntax

namespace Edit

/-- The edit takes something away, or wraps, or appends a value. -/
def isPlain : Edit → Bool
  | .remove _ _ => true
  | .insertBefore _ text => text.toList.getLast? == some '(' || text.toList.getLast? == some ' '
  | .insertAfter _ text => text == ")" || text == ".value"
  | .overwrite _ _ _ => false

theorem isPlain_issuedAt {base : Nat} {edits : List Edit} (h : ∀ e ∈ edits, e.isPlain = true) :
    ∀ e ∈ Walk.Run.issuedAt base edits, e.isPlain = true := by
  intro e' he'
  obtain ⟨e, he, he'⟩ := List.mem_flatMap.mp he'
  have hplain := h e he
  rcases mem_issued he' with ⟨rfl, _⟩ | ⟨start, stop, text, heq, _⟩
  · cases e <;> exact hplain
  · cases e <;> cases heq
    cases hplain

end Edit

namespace Session

theorem mem_missing {o : Options} {s : Session} {called : List Primitive} {p : Primitive} :
    p ∈ s.missing o called ↔ o.declarations = false ∧ p ∈ called ∧ p ∉ s.imported := by
  have hall : p ∈ Primitive.all := by cases p <;> decide
  cases h : o.declarations <;> simp [missing, h, hall]

theorem tempName_injective : Function.Injective tempName := by
  intro m n h
  have hdigits : (toString m).toList = (toString n).toList := by
    simpa [tempName] using congrArg String.toList h
  exact PropertyKey.toString_inj.mp (String.toList_injective hdigits)

end Session

namespace Unpack

def Binding.primitive : Binding → Primitive
  | .field _ _ _ => .toRef
  | .rest _ => .restProxy

/-- The text declares the target of the binding, by a call of its primitive on the temporary. -/
def Binding.DeclaredBy (temp : String) (b : Binding) (text : String) : Prop :=
  ∃ opening arguments, (opening = "" ∨ opening = "Object.values(") ∧
    text = "\n," ++ b.target ++ " = " ++ opening ++ b.primitive.localName ++ "(" ++ temp ++ ", " ++
      arguments

namespace Plan

theorem primitives_eq (p : Plan) : p.primitives = p.bindings.map Binding.primitive := by
  refine List.map_congr_left fun b _ => ?_
  cases b <;> rfl

/-- Every declaration calls the primitive of its binding. -/
theorem declaration_declaredBy (source : List Char) (shape : Shape) (temp : String)
    (seen : List FieldKey) (b : Binding) :
    b.DeclaredBy temp (declaration source shape temp seen b) := by
  unfold declaration
  cases b with
  | field target key default =>
    cases default with
    | none =>
      refine ⟨"", key.argument ++ ")", .inl rfl, ?_⟩
      simp only [Binding.target, Binding.primitive, String.append_assoc, String.empty_append]
    | some span =>
      refine ⟨"", key.argument ++ ", " ++ String.ofList (textUnder source span) ++ ")",
        .inl rfl, ?_⟩
      simp only [Binding.target, Binding.primitive, String.append_assoc, String.empty_append]
  | rest target =>
    let excluded := "[" ++ ", ".intercalate (seen.map FieldKey.excluded) ++ "])"
    have hopen (text : String) : ", " ++ ("[" ++ text) = ", [" ++ text := by
      rw [← String.append_assoc]
      rfl
    cases shape with
    | object =>
      refine ⟨"", excluded, .inl rfl, ?_⟩
      simp only [excluded, Binding.target, Binding.primitive, String.append_assoc,
        String.empty_append, hopen]
    | array =>
      refine ⟨"Object.values(", excluded ++ ")", .inr rfl, ?_⟩
      simp only [excluded, Binding.target, Binding.primitive, String.append_assoc, hopen]

/-- What is rendered for a plan declares its bindings one after another. -/
theorem render_declaredBy (source : List Char) (temp : String) (p : Plan) :
    ∃ texts : List String, p.render source temp = String.join texts ∧
      List.Forall₂ (Binding.DeclaredBy temp) p.bindings texts := by
  refine ⟨_, rfl, ?_⟩
  suffices h : ∀ bs seen, List.Forall₂ (Binding.DeclaredBy temp) bs
      (declarations source p.shape temp seen bs) from h p.bindings []
  intro bs
  induction bs with
  | nil => exact fun _ => .nil
  | cons b bs ih =>
    intro seen
    unfold declarations
    refine .cons (declaration_declaredBy source p.shape temp seen b) ?_
    cases b <;> exact ih _

end Plan

end Unpack

namespace Walk

structure Unpacking where
  plan : Unpack.Plan
  stop : Nat

def Event.unpacking? : Event → Option Unpacking
  | .unpack _ plan stop => some ⟨plan, stop⟩
  | _ => none

def Event.edit? : Event → Option Edit
  | .edit e => some e
  | _ => none

def unpackings (events : List Event) : List Unpacking :=
  events.filterMap Event.unpacking?

def Unpacking.edits (source : List Char) (n : Nat) (u : Unpacking) : List Edit :=
  [.overwrite u.plan.span.lo u.plan.span.hi (Session.tempName n),
    .insertAfter u.stop (u.plan.render source (Session.tempName n))]

/-- What becomes of patterns whose temporaries are numbered from `n` on. -/
def numbered (source : List Char) (n : Nat) (us : List Unpacking) : List Edit :=
  (us.zipIdx n).flatMap fun (u, k) => u.edits source k

def called (us : List Unpacking) : List Primitive :=
  us.flatMap fun u => u.plan.primitives

end Walk

def Session.after (o : Options) (s : Session) (us : List Walk.Unpacking) : Session :=
  ⟨s.nextTemp + us.length, s.imported ++ s.missing o (Walk.called us)⟩

namespace Walk

theorem numbered_append (source : List Char) (n : Nat) (us vs : List Unpacking) :
    numbered source n (us ++ vs) =
      numbered source n us ++ numbered source (n + us.length) vs := by
  simp [numbered, List.zipIdx_append]

section Runs

variable (source : List Char)

theorem step_session (r : Run) (ev : Event) :
    (r.step source ev).session =
        { r.session with nextTemp := r.session.nextTemp + ev.unpacking?.toList.length } ∧
      (r.step source ev).called = r.called ++ Walk.called ev.unpacking?.toList := by
  cases ev with
  | unpack place plan stop =>
    rw [Run.step, Run.unpack_eq]
    simp [Event.unpacking?, Session.freshTemp, Walk.called]
  | _ => simp [Run.step, Run.emit, Run.known, Run.unwrap, Run.refer, Event.unpacking?, Walk.called]

theorem unpackings_cons (ev : Event) (events : List Event) :
    unpackings (ev :: events) = ev.unpacking?.toList ++ unpackings events := by
  cases h : ev.unpacking? <;> simp [unpackings, h]

/-- A run takes a temporary for each pattern that it unpacks, and calls what their plans call. -/
theorem steps_session (events : List Event) (r : Run) :
    (r.steps source events).session =
        { r.session with nextTemp := r.session.nextTemp + (unpackings events).length } ∧
      (r.steps source events).called = r.called ++ called (unpackings events) := by
  induction events generalizing r with
  | nil => simp [Run.steps, unpackings, called]
  | cons ev events ih =>
    obtain ⟨hsession, hcalled⟩ := step_session source r ev
    obtain ⟨hsessions, hcalleds⟩ := ih (r.step source ev)
    rw [Run.steps, List.foldl_cons, ← Run.steps, hsessions, hcalleds, hsession, hcalled,
      unpackings_cons]
    refine ⟨?_, by simp [called]⟩
    rw [List.length_append, ← Nat.add_assoc]

/-- The edits of an event: those of a pattern, or the one that it is. -/
theorem edits_event (n : Nat) (ev : Event) :
    ev.edits source (Session.tempName n) =
      numbered source n ev.unpacking?.toList ++ ev.edit?.toList := by
  cases ev <;> simp [Event.edits, Event.unpacking?, Event.edit?, numbered, Unpacking.edits]

/-- A run issues the edits of its patterns, numbered on from its session, and the edits among its
events. -/
theorem steps_numbered (events : List Event) (r : Run) (horigin : r.emitter.origin = 0) :
    (r.steps source events).emitter.edits.edits.Perm (r.emitter.edits.edits ++
      (Run.issuedAt r.emitter.base (numbered source r.session.nextTemp (unpackings events)) ++
        Run.issuedAt r.emitter.base (events.filterMap Event.edit?))) := by
  induction events generalizing r with
  | nil => simp [Run.steps, unpackings, numbered, Run.issuedAt]
  | cons ev events ih =>
    obtain ⟨hstep, hbase, ho⟩ := @Run.step_edits source r horigin ev
    have hrest := ih (r.step source ev) ho
    have hown : (ev :: events).filterMap Event.edit? =
        ev.edit?.toList ++ events.filterMap Event.edit? := by
      cases h : ev.edit? <;> simp [h]
    rw [hstep, hbase, (step_session source r ev).1, edits_event, Run.issuedAt_append] at hrest
    rw [Run.steps, List.foldl_cons, ← Run.steps, unpackings_cons, numbered_append, hown,
      Run.issuedAt_append, Run.issuedAt_append]
    refine hrest.trans ?_
    simp only [List.append_assoc]
    -- the edit of this event moves behind the patterns to come
    exact ((List.perm_append_comm_assoc ..).append_left _).append_left _

end Runs

section Units

variable (o : Options) (session : Session) (base : Nat) (source : List Char) (stmts : List Stmt)

/-- The edits among the events of a script take sigils away or wrap. -/
theorem isPlain_of_event {e : Edit} (h : .edit e ∈ traceStmts (setting o source) stmts) :
    e.isPlain = true := by
  have hopen (text : String) : (text ++ "(").toList.getLast? = some '(' := by simp
  obtain ⟨s, v, _, hev⟩ := (mem_traceStmts_iff rfl).mp h
  rcases piece_event hev with ⟨m, heq, _⟩ | ⟨place, name, heq⟩ | htriggered
  · cases heq
  · cases heq
  · cases triggers_of_mem htriggered with
    | @wrap leaf _ _ he =>
      cases leaf <;> rcases (by simpa [Leaf.edits] using he) with rfl | rfl <;>
        simp only [Edit.isPlain, hopen] <;> rfl
    | strip _ | front _ | back _ _ | erase _ _ => rfl

theorem isPlain_of_resolved {r : Run} {e : Edit} (h : e ∈ r.resolved o) : e.isPlain = true := by
  obtain ⟨ref, _, he⟩ := List.mem_flatMap.mp h
  cases hclass : ref.classify r.scopes.leave r.marked o.resolution <;>
    simp [hclass, Reference.editsFor] at he
  · simp [he, Edit.isPlain]
  · simp [he, Edit.isPlain]
  · rcases he with rfl | rfl <;> simp [Edit.isPlain]

/-- A script issues the edits of its patterns, numbered on from its session, and imports what is
missing. -/
theorem script_shared (us : List Unpacking)
    (hus : us = unpackings (traceStmts (setting o source) stmts)) : ∃ others : List Edit,
    (script o session base source stmts).edits.edits.Perm
        (Run.issuedAt base (numbered source session.nextTemp us) ++
          Session.importEdits o base (session.missing o (called us)) ++ others) ∧
      (∀ e ∈ others, e.isPlain = true) ∧
      (script o session base source stmts).session = session.after o us := by
  let run := scriptRun o session base source stmts
  obtain ⟨_, _, hbase, horigin, _⟩ := scriptRun_edits o session base source stmts
  obtain ⟨hsession, hcalled⟩ := steps_session source
    (traceStmts (setting o source) stmts) (.start base .program session)
  have hissued := steps_numbered source (traceStmts (setting o source) stmts)
    (.start base .program session) rfl
  obtain ⟨hedits, hafter⟩ := Run.finish_imports o run horigin
  have hsession : run.session = ⟨session.nextTemp + us.length, session.imported⟩ := hus ▸ hsession
  have hmissing : run.session.missing o run.called = session.missing o (called us) := by
    have hcalled : run.called = called us := hus ▸ hcalled
    rw [hsession, hcalled]
    rfl
  rw [hbase, hmissing] at hedits
  rw [hmissing, hsession] at hafter
  refine ⟨Run.issuedAt base ((traceStmts (setting o source) stmts).filterMap Event.edit?) ++
    Run.issuedAt base (run.resolved o), ?_, ?_, hafter⟩
  · have hrun : run.emitter.edits.edits.Perm
        (Run.issuedAt base (numbered source session.nextTemp us) ++
          Run.issuedAt base ((traceStmts (setting o source) stmts).filterMap Event.edit?)) :=
      hus ▸ hissued
    refine (List.Perm.of_eq hedits).trans (((hrun.append_right _).append_right _).trans ?_)
    simp only [List.append_assoc]
    -- the import is issued last
    refine List.Perm.append_left _ ?_
    rw [← List.append_assoc]
    exact List.perm_append_comm
  · refine List.forall_mem_append.mpr ⟨?_, ?_⟩
    · refine Edit.isPlain_issuedAt fun e he => ?_
      obtain ⟨ev, hev, hedit⟩ := List.mem_filterMap.mp he
      cases ev <;> cases hedit
      exact isPlain_of_event o source stmts hev
    · exact Edit.isPlain_issuedAt fun e he => isPlain_of_resolved o he

theorem Visits.source_eq {s : Setting} {v : Visit} (h : Visits (scriptPieces o source stmts) s v) :
    s.source = source := by
  obtain ⟨_, rfl⟩ := h.setting_eq
  rfl

/-- A pattern is unpacked by the visit of its declaration. -/
theorem unpack_mem_pieces_iff {s : Setting} {v : Visit} {place : Place} {plan : Unpack.Plan}
    {stop : Nat} : .event (.unpack place plan stop) ∈ v.pieces s ↔
      ∃ span target init, v = .declarator place (.mk span target init) ∧
        (unwrapCallee? s init).isSome = true ∧ Unpack.plan? s.source target = some plan ∧
        stop = span.hi := by
  constructor
  · intro h
    rcases piece_event h with ⟨m, heq, _⟩ | ⟨_, name, heq⟩ | htriggered
    · cases heq
    · cases heq
    · cases triggers_of_mem htriggered with
      | @unpack _ span target init _ hv hplan =>
        subst hv
        refine ⟨span, target, init, rfl, ?_, hplan, rfl⟩
        -- a declaration whose value is not unwrapped only looks at a function
        by_contra hnone
        have hnone : unwrapCallee? s init = none := by simpa using hnone
        have hvalue : .unpack place plan span.hi ∈ functionValueEvents s target init := by
          simpa [Visit.triggered, declaratorEvents, hnone] using htriggered
        unfold functionValueEvents at hvalue
        split at hvalue <;>
          simp [stripTrailing, wrap] at hvalue
  · rintro ⟨span, target, init, rfl, hcallee, hplan, rfl⟩
    obtain ⟨callee, hcallee⟩ := Option.isSome_iff_exists.mp hcallee
    refine List.mem_append_left _ ?_
    cases target with
    | name id => cases hplan
    | _ => simp [Visit.outer, declaratorOuter, hcallee, unwrapEvents?, hplan]

/-- The patterns that a script unpacks are those of the declarations that it visits whose values are
to be unwrapped and for which there is a plan. -/
theorem mem_unpackings_iff {u : Unpacking} :
    u ∈ unpackings (traceStmts (setting o source) stmts) ↔
      ∃ s place span target init, Visits (scriptPieces o source stmts) s
          (.declarator place (.mk span target init)) ∧ (unwrapCallee? s init).isSome = true ∧
        Unpack.plan? source target = some u.plan ∧ u.stop = span.hi := by
  have hmem : u ∈ unpackings (traceStmts (setting o source) stmts) ↔
      ∃ place, .unpack place u.plan u.stop ∈ traceStmts (setting o source) stmts := by
    rw [unpackings, List.mem_filterMap]
    constructor
    · rintro ⟨ev, hev, hu⟩
      cases ev <;> cases hu
      exact ⟨_, hev⟩
    · rintro ⟨place, hev⟩
      exact ⟨_, hev, rfl⟩
  rw [hmem]
  constructor
  · rintro ⟨place, hev⟩
    obtain ⟨s, v, hvisits, hev⟩ := (mem_traceStmts_iff rfl).mp hev
    obtain ⟨span, target, init, rfl, hcallee, hplan, hstop⟩ := unpack_mem_pieces_iff.mp hev
    rw [Visits.source_eq o source stmts hvisits] at hplan
    exact ⟨s, place, span, target, init, hvisits, hcallee, hplan, hstop⟩
  · rintro ⟨s, place, span, target, init, hvisits, hcallee, hplan, hstop⟩
    rw [← Visits.source_eq o source stmts hvisits] at hplan
    exact ⟨place, (mem_traceStmts_iff rfl).mpr ⟨s, _, hvisits,
      unpack_mem_pieces_iff.mpr ⟨span, target, init, rfl, hcallee, hplan, hstop⟩⟩⟩

end Units

end Walk

namespace Transform

open Document (Region)

def regionUnpackings (o : Options) (source : List Char) (r : Region) : List Walk.Unpacking :=
  let text := textUnder source ⟨r.start, r.stop⟩
  if Sigil.containsSigil text then
    (parseModule r.dialect text).toOption.toList.flatMap fun stmts =>
      Walk.unpackings (Walk.traceStmts (Walk.setting o text) stmts)
  else []

/-- The region is walked, and comes upon a declaration whose value is to be unwrapped and for whose
pattern there is a plan. -/
def Unpacks (o : Options) (source : List Char) (r : Region) (u : Walk.Unpacking) : Prop :=
  let text := textUnder source ⟨r.start, r.stop⟩
  Sigil.containsSigil text = true ∧ ∃ stmts, parseModule r.dialect text = .ok stmts ∧
    ∃ s place span target init,
      Walk.Visits (Walk.scriptPieces o text stmts) s (.declarator place (.mk span target init)) ∧
      (Walk.unwrapCallee? s init).isSome = true ∧ Unpack.plan? text target = some u.plan ∧
      u.stop = span.hi

/-- A pattern is unpacked exactly where the walk comes upon it with a plan. -/
theorem mem_regionUnpackings_iff {o : Options} {source : List Char} {r : Region}
    {u : Walk.Unpacking} : u ∈ regionUnpackings o source r ↔ Unpacks o source r u := by
  unfold regionUnpackings Unpacks
  dsimp only
  split
  · rename_i hsigil
    cases hparse : parseModule r.dialect (textUnder source ⟨r.start, r.stop⟩) with
    | error fault =>
      refine ⟨fun h => absurd h List.not_mem_nil, ?_⟩
      rintro ⟨_, stmts, hok, _⟩
      cases hok
    | ok stmts =>
      simp only [Except.toOption, Option.toList_some, List.flatMap_cons, List.flatMap_nil,
        List.append_nil, Walk.mem_unpackings_iff]
      refine ⟨fun h => ⟨hsigil, stmts, rfl, h⟩, ?_⟩
      rintro ⟨_, _, hok, h⟩
      cases hok
      exact h
  · rename_i hsigil
    exact ⟨fun h => absurd h List.not_mem_nil, fun h => absurd h.1 hsigil⟩

def unpackings (o : Options) (source : List Char) (regions : List Region) :
    List (Region × Walk.Unpacking) :=
  regions.flatMap fun r => (regionUnpackings o source r).map (r, ·)

/-- What becomes of patterns whose temporaries are numbered from `n` on. -/
def unpackedEdits (source : List Char) (n : Nat) (us : List (Region × Walk.Unpacking)) : List Edit :=
  (us.zipIdx n).flatMap fun ((r, u), k) =>
    Walk.Run.issuedAt r.start (u.edits (textUnder source ⟨r.start, r.stop⟩) k)

def calls (o : Options) (source : List Char) (p : Primitive) (r : Region) : Bool :=
  (Walk.called (regionUnpackings o source r)).contains p

def importEdit (o : Options) (i : Region × List Primitive) : Edit :=
  .insertAfter i.1.start (Session.importText o i.2)

def imports (o : Options) (source : List Char) : Session → List Region →
    List (Region × List Primitive)
  | _, [] => []
  | s, r :: regions =>
    let us := regionUnpackings o source r
    let ps := s.missing o (Walk.called us)
    (if ps.isEmpty then [] else [(r, ps)]) ++ imports o source (s.after o us) regions

section Imports

variable {o : Options} {source : List Char}

theorem imports_of_declarations (h : o.declarations = true) (s : Session) (regions : List Region) :
    imports o source s regions = [] := by
  induction regions generalizing s with
  | nil => rfl
  | cons r regions ih => simp [imports, Session.missing, h, ih]

/-- No import is empty, and none names a primitive twice. -/
theorem imports_filled (s : Session) (regions : List Region) :
    ∀ i ∈ imports o source s regions, i.2 ≠ [] ∧ i.2.Nodup := by
  induction regions generalizing s with
  | nil => simp [imports]
  | cons r regions ih =>
    refine List.forall_mem_append.mpr ⟨?_, ih _⟩
    split
    · simp
    · rename_i hps
      refine List.forall_mem_singleton.mpr ⟨fun hnil => hps (List.isEmpty_iff.mpr hnil), ?_⟩
      unfold Session.missing
      split
      · exact List.nodup_nil
      · exact List.Nodup.filter _ (by decide)

/-- Each primitive is imported by the first region that calls it, unless it has been before. -/
theorem importers_eq (h : o.declarations = false) (p : Primitive) (s : Session)
    (regions : List Region) :
    ((imports o source s regions).filter fun i => i.2.contains p).map Prod.fst =
      if p ∈ s.imported then [] else (regions.find? (calls o source p)).toList := by
  induction regions generalizing s with
  | nil => simp [imports]
  | cons r regions ih =>
    have hmem : p ∈ s.missing o (Walk.called (regionUnpackings o source r)) ↔
        calls o source p r = true ∧ p ∉ s.imported := by
      rw [Session.mem_missing]
      simp [h, calls]
    have hafter : p ∈ (s.after o (regionUnpackings o source r)).imported ↔
        p ∈ s.imported ∨ calls o source p r = true := by
      rw [Session.after, List.mem_append, hmem]
      tauto
    have hown (ps : List Primitive) : (((if ps.isEmpty then [] else [(r, ps)]).filter
        fun i => i.2.contains p).map Prod.fst) = if p ∈ ps then [r] else [] := by
      by_cases hp : p ∈ ps
      · simp [hp, List.ne_nil_of_mem hp]
      · split <;> simp [hp]
    simp only [imports, List.filter_append, List.map_append, hown, ih, hafter, hmem, List.find?_cons]
    by_cases himported : p ∈ s.imported
    · simp [himported]
    · cases hcalls : calls o source p r <;> simp [himported]

end Imports

section Regions

variable {o : Options} {filename : String} {source : List Char}

/-- A region adds the edits of its patterns, numbered on from the regions in front of it, and what they
need that has not been imported. -/
theorem region_shared {p p' : Progress} {r : Region} (h : region o filename source p r = .ok p') :
    ∃ others : List Edit,
      p'.edits.edits.Perm (p.edits.edits ++
        (Walk.Run.issuedAt r.start (Walk.numbered (textUnder source ⟨r.start, r.stop⟩)
            p.session.nextTemp (regionUnpackings o source r)) ++
          Session.importEdits o r.start
            (p.session.missing o (Walk.called (regionUnpackings o source r))) ++ others)) ∧
      (∀ e ∈ others, e.isPlain = true) ∧
      p'.session = p.session.after o (regionUnpackings o source r) := by
  unfold region at h
  unfold regionUnpackings
  cases hslice : Text.slice? r.start r.stop source with
  | none => simp [hslice] at h
  | some text =>
    have htext : textUnder source ⟨r.start, r.stop⟩ = text := by simp [textUnder, hslice]
    rw [hslice] at h
    simp only [htext]
    by_cases hsigil : Sigil.containsSigil text = true
    · cases hparse : parseModule r.dialect text with
      | error fault => simp [hsigil, hparse] at h
      | ok stmts =>
        obtain ⟨others, hedits, hplain, hsession⟩ := Walk.script_shared o p.session r.start text stmts
          _ rfl
        simp only [hsigil, hparse, Bool.not_true, Bool.false_eq_true, if_false, Except.ok.injEq] at h
        subst h
        simp only [hsigil, if_true, Except.toOption, Option.toList_some, List.flatMap_cons,
          List.flatMap_nil, List.append_nil]
        exact ⟨others, hedits.append_left _, hplain, hsession⟩
    · obtain rfl : p = p' := by simpa [hsigil] using h
      have hcalled : Walk.called [] = [] := rfl
      refine ⟨[], ?_, by simp, ?_⟩
      · simp [hsigil, Walk.numbered, hcalled, Session.missing_nil, Session.importEdits,
          Walk.Run.issuedAt]
      · simp [hsigil, Session.after, hcalled, Session.missing_nil]

theorem unpackedEdits_append (n : Nat) (us vs : List (Region × Walk.Unpacking)) :
    unpackedEdits source n (us ++ vs) =
      unpackedEdits source n us ++ unpackedEdits source (n + us.length) vs := by
  simp [unpackedEdits, List.zipIdx_append]

theorem unpackedEdits_region (n : Nat) (r : Region) (us : List Walk.Unpacking) :
    unpackedEdits source n (us.map (r, ·)) =
      Walk.Run.issuedAt r.start (Walk.numbered (textUnder source ⟨r.start, r.stop⟩) n us) := by
  simp [unpackedEdits, Walk.numbered, Walk.Run.issuedAt, List.zipIdx_map, List.flatMap_map,
    List.flatMap_assoc]

/-- Regions add the edits of all their patterns, numbered from the first to the last, and their
imports. -/
theorem foldlM_shared {regions : List Region} {p p' : Progress}
    (h : regions.foldlM (region o filename source) p = .ok p') : ∃ others : List Edit,
      p'.edits.edits.Perm (p.edits.edits ++
        (unpackedEdits source p.session.nextTemp (unpackings o source regions) ++
          (imports o source p.session regions).map (importEdit o) ++ others)) ∧
      ∀ e ∈ others, e.isPlain = true := by
  induction regions generalizing p with
  | nil =>
    obtain rfl : p = p' := by simpa [pure, Except.pure] using h
    exact ⟨[], by simp [unpackings, unpackedEdits, imports], by simp⟩
  | cons r regions ih =>
    rw [List.foldlM_cons] at h
    cases hregion : region o filename source p r with
    | error e => simp [hregion, bind, Except.bind] at h
    | ok q =>
      rw [hregion] at h
      obtain ⟨others, hedits, hplain, hsession⟩ := region_shared hregion
      obtain ⟨others', hedits', hplain'⟩ := ih h
      refine ⟨others ++ others', ?_, List.forall_mem_append.mpr ⟨hplain, hplain'⟩⟩
      have hown : unpackings o source (r :: regions) =
          (regionUnpackings o source r).map (r, ·) ++ unpackings o source regions := rfl
      have himports (ps : List Primitive) :
          (if ps.isEmpty then [] else [(r, ps)]).map (importEdit o) =
            Session.importEdits o r.start ps := by
        unfold Session.importEdits
        split <;> rfl
      rw [hsession] at hedits'
      rw [hown, unpackedEdits_append, unpackedEdits_region, List.length_map, imports, List.map_append,
        himports]
      refine hedits'.trans ((hedits.append_right _).trans ?_)
      refine List.perm_iff_count.mpr fun e => ?_
      simp only [List.count_append, Session.after]
      omega

theorem slice?_of_foldlM {regions : List Region} {p p' : Progress}
    (h : regions.foldlM (region o filename source) p = .ok p') :
    ∀ r ∈ regions, Text.slice? r.start r.stop source ≠ none := by
  refine @foldlM_ok_induct _ _ _ (region o filename source)
    (fun done _ => ∀ r ∈ done, Text.slice? r.start r.stop source ≠ none) p p' regions (by simp) ?_ h
  intro done r p p' _ hdone hregion
  refine List.forall_mem_append.mpr ⟨hdone, List.forall_mem_singleton.mpr fun hslice => ?_⟩
  simp [region, hslice] at hregion

/-- The last changed region is the last one with an edit. -/
theorem lastStop?_eq (regions : List Region) (us : List Patch) :
    lastStop? regions us =
      ((regions.zip us).filter fun i => !i.2.edits.isEmpty).getLast?.map (·.1.stop) := by
  induction regions generalizing us with
  | nil => simp [lastStop?]
  | cons r regions ih =>
    cases us with
    | nil => simp [lastStop?]
    | cons u us =>
      rw [lastStop?, ih, List.zip_cons_cons, List.filter_cons]
      cases hu : u.edits.isEmpty with
      | true => simp
      | false =>
        simp only [Bool.not_false, if_true, List.getLast?_cons]
        cases ((regions.zip us).filter fun i => !i.2.edits.isEmpty).getLast? <;> simp

end Regions

def changedRegions (o : Options) (source : List Char) (regions : List Region) : List Region :=
  ((regions.zip (patches o source {} regions)).filter fun i => !i.2.edits.isEmpty).map Prod.fst

/-- The declarations, if they are asked for, behind the last region that has an edit. -/
def declared (o : Options) (source : List Char) (regions : List Region) : List Edit :=
  if o.declarations then
    (changedRegions o source regions).getLast?.toList.map fun r =>
      .insertAfter r.stop ("\n" ++ primitiveDeclarations o)
  else []

structure Shares (o : Options) (source : List Char) (regions : List Region) (edits : List Edit) :
    Prop where
  /-- The patterns of the document are numbered in order. What is left neither unpacks, nor imports,
  nor declares. -/
  numbered : ∃ others : List Edit,
    edits.Perm (unpackedEdits source 0 (unpackings o source regions) ++
      (imports o source {} regions).map (importEdit o) ++ declared o source regions ++ others) ∧
    ∀ e ∈ others, e.isPlain = true
  /-- Only the declarations are not an edit of a region. -/
  own : edits.Perm (placedEdits regions (patches o source {} regions) ++ declared o source regions)
  /-- Each primitive is imported in the first region that calls it, and nowhere else. -/
  importers : o.declarations = false → ∀ p : Primitive,
    ((imports o source {} regions).filter fun i => i.2.contains p).map Prod.fst =
      (regions.find? (calls o source p)).toList
  filled : ∀ i ∈ imports o source {} regions, i.2 ≠ [] ∧ i.2.Nodup
  silent : o.declarations = true → imports o source {} regions = []

section Documents

variable {o : Options} {filename : String} {source : List Char}

theorem declared_eq {regions : List Region} {p : Progress}
    (h : regions.foldlM (region o filename source) {} = .ok p) :
    (p.finalEdits o).edits = p.edits.edits ++ declared o source regions ∧
      p.edits.edits = placedEdits regions (patches o source {} regions) := by
  obtain ⟨hedits, hlast⟩ := foldlM_region (slice?_of_foldlM h) h
  rw [Option.or_none, lastStop?_eq] at hlast
  refine ⟨?_, by simpa using hedits⟩
  rw [finalEdits_eq, declared, hlast, changedRegions, List.getLast?_map]
  cases ((regions.zip (patches o source {} regions)).filter fun i => !i.2.edits.isEmpty).getLast? <;>
    rfl

/-- Regions that are transformed together number the temporaries of all their patterns, import each
primitive where it is called first, and declare the primitives once if that is asked for instead. A
primitive is called if a binding that it gives a value to is rendered. -/
theorem transformRegions_shares_session {regions : List Region} {t : Transformed}
    (h : transformRegions o filename source regions = .ok t) :
    Shares o source regions t.edits ∧ Function.Injective Session.tempName ∧
      (∀ r u, u ∈ regionUnpackings o source r ↔ Unpacks o source r u) ∧
      (∀ r p, calls o source p r = true ↔
        ∃ u, Unpacks o source r u ∧ ∃ b ∈ u.plan.bindings, b.primitive = p) ∧
      ∀ (plan : Unpack.Plan) (text : List Char) (temp : String), ∃ texts : List String,
        plan.render text temp = String.join texts ∧
        List.Forall₂ (Unpack.Binding.DeclaredBy temp) plan.bindings texts := by
  refine ⟨?_, Session.tempName_injective, fun _ _ => mem_regionUnpackings_iff, ?_, ?_⟩
  · obtain ⟨p, result, hfold, hsplice, rfl⟩ := transformRegions_inv h
    have hsorted := splice_perm hsplice
    obtain ⟨hfinal, hplaced⟩ := declared_eq hfold
    rw [hfinal] at hsorted
    obtain ⟨others, hedits, hplain⟩ := foldlM_shared hfold
    refine ⟨⟨others, ?_, hplain⟩, hplaced ▸ hsorted, fun hdeclarations p => ?_,
      imports_filled _ _, fun hdeclarations => imports_of_declarations hdeclarations _ _⟩
    · refine hsorted.trans ((hedits.append_right _).trans ?_)
      refine List.perm_iff_count.mpr fun e => ?_
      simp only [List.count_append, List.count_nil]
      omega
    · simpa using importers_eq hdeclarations p {} regions
  · intro r p
    simp only [calls, List.contains_iff_mem, Walk.called, List.mem_flatMap, mem_regionUnpackings_iff,
      Unpack.Plan.primitives_eq, List.mem_map]
  · exact fun plan text temp => plan.render_declaredBy text temp

end Documents

/-- A component with two scripts, of which the second calls one primitive more. -/
def sharingScripts : List Char :=
  "<script>let \x7ba\x7d=$x()</script><script>let [b,...c]=$y()</script>".toList

def sharingEdits : List Edit :=
  [.overwrite 12 15 "__rfx_ref0", .insertAfter 20 "\n,a = __rfx_toRef(__rfx_ref0, 'a')",
    .remove 16 17, .insertAfter 8 (Session.importText {} [.toRef]), .overwrite 41 49 "__rfx_ref1",
    .insertAfter 54 ("\n,b = __rfx_toRef(__rfx_ref1, 0)" ++
      "\n,c = Object.values(__rfx_createPropsRestProxy(__rfx_ref1, ['0']))"),
    .remove 50 51, .insertAfter 37 (Session.importText {} [.restProxy])]

/-- The second script imports only what the first does not. -/
theorem transformRegions_shares_session_two : ∃ t,
    transformRegions {} "c.vue" sharingScripts (Document.scriptRegions sharingScripts) = .ok t ∧
    t.edits.Perm sharingEdits ∧
    Shares {} sharingScripts (Document.scriptRegions sharingScripts) t.edits := by
  have hregions : Document.regionsOf? "c.vue" sharingScripts =
      some (Document.scriptRegions sharingScripts) := rfl
  obtain ⟨_, ht⟩ := @transformFile_of_edits {} "c.vue" sharingScripts _ sharingEdits rfl hregions
    (by decide +kernel)
  have hok : (splice {} "c.vue" sharingScripts ⟨sharingEdits⟩).isOk = true := by cbv
  cases hsplice : splice {} "c.vue" sharingScripts ⟨sharingEdits⟩ with
  | error e => simp [hsplice, Except.isOk, Except.toBool] at hok
  | ok result =>
    rw [hsplice, transformFile, hregions] at ht
    have hperm : result.edits.Perm sharingEdits := splice_perm hsplice
    exact ⟨_, ht, hperm, (transformRegions_shares_session ht).1⟩

def namingText : List Char :=
  "let \x7b a = __rfx_createPropsRestProxy \x7d = $x()".toList

def namingEdits : List Edit :=
  [.overwrite 4 38 "__rfx_ref0",
    .insertAfter 45 "\n,a = __rfx_toRef(__rfx_ref0, 'a', __rfx_createPropsRestProxy)",
    .remove 41 42, .insertAfter 0 (Session.importText {} [.toRef])]

/-- A default is copied into what is rendered, but what it names is not called, and not imported. -/
theorem named_primitive_not_imported : ∃ t text,
    transformFile {} "t.ts" namingText = .ok t ∧
    t.edits = [.insertAfter 0 (Session.importText {} [.toRef]), .overwrite 4 38 "__rfx_ref0",
      .remove 41 42, .insertAfter 45 text] ∧
    Primitive.restProxy.localName.toList <:+: text.toList ∧
    ¬ Primitive.restProxy.localName.toList <:+: (Session.importText {} [.toRef]).toList := by
  have hregions : Document.regionsOf? "t.ts" namingText = some [.whole namingText .ts] := rfl
  obtain ⟨_, ht⟩ := @transformFile_of_edits {} "t.ts" namingText _ namingEdits rfl hregions
    (by decide +kernel)
  have hsorted : EditSet.sorted ⟨namingEdits⟩ = [.insertAfter 0 (Session.importText {} [.toRef]),
      .overwrite 4 38 "__rfx_ref0", .remove 41 42,
      .insertAfter 45 "\n,a = __rfx_toRef(__rfx_ref0, 'a', __rfx_createPropsRestProxy)"] := by
    cbv
  have hok : (EditSet.apply ⟨namingEdits⟩ namingText).isOk = true := by cbv
  cases happly : EditSet.apply ⟨namingEdits⟩ namingText with
  | error e => simp [happly, Except.isOk, Except.toBool] at hok
  | ok spliced =>
    rw [splice, happly] at ht
    refine ⟨_, _, ht, hsorted, ?_, ?_⟩
    · decide +kernel
    · decide +kernel

end Transform

end RefSugar

import Mathlib
import RefSugar.Proofs.AnchoredEdits
import RefSugar.Proofs.Components

/-! The names that a script hands on to the expressions that run in its scope. A script hands on each
name that its root scope declares as a binding to unwrap. It unwraps such a name itself unless the root
scope declares it in the ordinary way as well. Main statement: a script and an expression agree on a
name if and only if the root scope does not declare it in both ways. -/
namespace RefSugar

open Syntax

namespace Walk

/-- A declaration goes to a frame that exists. -/
theorem Place.frame_lt {s : Scopes} (h : s.Counted) (hsome : s.frames ≠ []) (place : Place) :
    place.frame s < s.frames.length := by
  have hopen : ∀ id ∈ s.stack, id < s.frames.length := fun id hid =>
    Scopes.length_shape s ▸ h.chained.lt_length hid
  have hroot : 0 < s.frames.length := List.length_pos_iff.mpr hsome
  cases place with
  | current =>
    simp only [frame, Scopes.current]
    cases hhead : s.stack.head? with
    | none => exact hroot
    | some id => exact hopen id (List.mem_of_head? hhead)
  | hoisted =>
    simp only [frame, Scopes.hoistTarget]
    cases hfind : s.stack.find? _ with
    | none => exact hroot
    | some id => exact hopen id (List.mem_of_find?_eq_some hfind)

section Recording

variable {source : List Char} {r : Run}

/-- A step records what it declares to be unwrapped, with its frame. -/
theorem step_unwrapped (r : Run) (ev : Event) :
    (r.step source ev).unwrapped = r.unwrapped ++
      (ev.decls.filter (·.kind == .unwrap)).map fun d => ⟨d.name, d.place.frame r.scopes⟩ := by
  cases ev with
  | unpack place plan stop =>
    have hrest : ∀ names : List String, (names.map fun name =>
        (⟨place, .known, name⟩ : Decl)).filter (·.kind == .unwrap) = [] := by simp
    have hfields : ∀ names : List String, (names.map fun name =>
        (⟨place, .unwrap, name⟩ : Decl)).filter (·.kind == .unwrap) =
          names.map fun name => ⟨place, .unwrap, name⟩ := by simp
    rw [Run.step, Run.unpack_eq]
    simp [Event.decls, hrest, hfields]
  | _ => simp [Run.step, Run.emit, Run.known, Run.unwrap, Run.refer, Event.decls]

/-- The names to unwrap are recorded with the frames that declare them. -/
structure Records (r : Run) : Prop where
  counted : r.scopes.Counted
  rooted : r.scopes.frames ≠ []
  names : ∀ name frame, ⟨name, frame⟩ ∈ r.unwrapped ↔ r.scopes.Declares frame .unwrap name

/-- A step keeps the records in accordance with the frames. -/
theorem Records.step (h : Records r) (ev : Event) : Records (r.step source ev) where
  counted := step_counted h.counted ev
  rooted := by
    have hlength : r.scopes.shape.length ≤ (r.step source ev).scopes.shape.length :=
      (step_shape r ev).length_le
    rw [Scopes.length_shape, Scopes.length_shape] at hlength
    have hpos := List.length_pos_iff.mpr h.rooted
    exact List.length_pos_iff.mp (by omega)
  names := by
    intro name frame
    rw [step_unwrapped, List.mem_append, h.names, step_declares]
    refine or_congr_right ?_
    simp only [List.mem_map, List.mem_filter, beq_iff_eq, Unwrapped.mk.injEq]
    constructor
    · rintro ⟨d, ⟨hd, hkind⟩, hname, hframe⟩
      exact ⟨d, hd, d.place.frame_lt h.counted h.rooted, hkind, hname, hframe⟩
    · rintro ⟨d, hd, _, hkind, hname, hframe⟩
      exact ⟨d, ⟨hd, hkind⟩, hname, hframe⟩

theorem Records.steps (h : Records r) (events : List Event) : Records (r.steps source events) := by
  induction events generalizing r with
  | nil => exact h
  | cons ev events ih => exact ih (h.step ev)

theorem start_records (base : Nat) (kind : FrameKind) (session : Session) :
    Records (Run.start base kind session) where
  counted := Scopes.root_counted kind
  rooted := by simp [Run.start, Scopes.root, Scopes.enter]
  names := by
    intro name frame
    refine iff_of_false (by simp [Run.start]) ?_
    rintro ⟨f, hf, hname⟩
    obtain rfl := List.mem_singleton.mp (List.mem_of_getElem? hf)
    cases hname

end Recording

section Units

variable (o : Options) (session : Session) (base : Nat) (source : List Char) (stmts : List Stmt)

theorem finish_rootUnwraps (r : Run) :
    (r.finish o).rootUnwraps = (r.unwrapped.filter (·.frame == 0)).map Unwrapped.name := by
  unfold Run.finish
  dsimp only
  split
  · rfl
  · split <;> rfl

/-- A script hands on the names that its scope declares as bindings to unwrap. -/
theorem mem_rootUnwraps {name : String} : name ∈ (script o session base source stmts).rootUnwraps ↔
    (scriptScope o source stmts).Declares .unwrap name := by
  have hrecords : Records (scriptRun o session base source stmts) :=
    (start_records base .program session).steps _
  rw [script, ← scriptRun, finish_rootUnwraps, ← scriptRun_declares o session base source stmts,
    ← hrecords.names]
  simp only [List.mem_map, List.mem_filter, beq_iff_eq]
  constructor
  · rintro ⟨⟨_, _⟩, ⟨hmem, rfl⟩, rfl⟩
    exact hmem
  · exact fun hmem => ⟨_, ⟨hmem, rfl⟩, rfl⟩

theorem seeded_declares (unwraps : List String) {s : Scopes} (hroot : 0 < s.frames.length)
    (kind : BindingKind) (name : String) :
    (unwraps.foldl (·.declareUnwrap 0) s).Declares 0 kind name ↔
      s.Declares 0 kind name ∨ kind = .unwrap ∧ name ∈ unwraps := by
  have h := @foldl_declare_declares (unwraps.map fun name => ⟨.current, .unwrap, name⟩) (fun _ => 0)
    s 0 kind name
  simp only [List.foldl_map, Scopes.declare] at h
  rw [h]
  simp [hroot, eq_comm, and_comm]

/-- A lone expression unwraps a name of its scope if it is one of the names given. -/
theorem seeded_resolve (unwraps : List String) (name : String) :
    (seeded unwraps).scopes.resolve 0 name = some .unwrap ↔ name ∈ unwraps := by
  obtain ⟨hcounted, hstack⟩ := seeded_counted unwraps (Scopes.root_counted .expression)
  have hchained : Scopes.Chained (seeded unwraps).scopes.shape [0] := by
    have hchained := hcounted.chained
    rw [hstack] at hchained
    exact hchained
  have hdeclares (kind : BindingKind) : (seeded unwraps).scopes.Declares 0 kind name ↔
      kind = .unwrap ∧ name ∈ unwraps := by
    have hempty : ¬ (Scopes.root .expression).Declares 0 kind name := by
      cases kind <;> simp [Scopes.Declares, Scopes.root, Scopes.enter, Frame.names]
    have h := @seeded_declares unwraps (.root .expression) (by simp [Scopes.root, Scopes.enter]) kind
      name
    rw [or_iff_right hempty] at h
    exact h
  rw [hchained.resolve_unwrap_iff (by simp [hdeclares])]
  simp [hdeclares]

/-- What becomes of a lone name. -/
theorem expression_name_edits (hlexical : o.resolution = .lexical) (unwraps : List String)
    (id : Ident) : (expression o unwraps source (.name id)).edits.edits =
      if id.name ∈ unwraps then [.insertAfter id.span.hi ".value"] else [] := by
  let run := (seeded unwraps).steps source (traceExpr (setting o source) [] false (.name id))
  have hcurrent : (seeded unwraps).scopes.current = 0 := by
    have hstack : (seeded unwraps).scopes.stack = [0] :=
      (seeded_counted unwraps (Scopes.root_counted .expression)).2
    simp [Scopes.current, hstack]
  have hrefs : run.references = [recorded (seeded unwraps) { id }] := rfl
  have hactive : (recorded (seeded unwraps) { id }).isActive run.scopes.leave .lexical =
      decide (id.name ∈ unwraps) := by
    rw [Bool.eq_iff_iff, decide_eq_true_eq, ← seeded_resolve]
    simp only [Reference.isActive, recorded, hcurrent, Scopes.resolve_leave, beq_iff_eq]
    rfl
  have hresolved : run.resolved o =
      if id.name ∈ unwraps then [.insertAfter id.span.hi ".value"] else [] := by
    have hmarked : run.marked = [] := rfl
    simp only [Run.resolved, hrefs, hmarked, hlexical, List.flatMap_cons, List.flatMap_nil,
      List.append_nil, Reference.classify, hactive]
    by_cases hmem : id.name ∈ unwraps <;> simp [hmem, Reference.editsFor, recorded]
  have hcalled : run.called = [] := rfl
  have hemitter : run.emitter = { base := 0 } := rfl
  have hedits := (Run.finish_imports o run rfl).1
  rw [hresolved, hcalled, Session.missing_nil, Session.importEdits, List.isEmpty_nil, if_pos rfl,
    hemitter, List.nil_append, List.append_nil] at hedits
  refine hedits.trans ?_
  split
  · rw [Run.issuedAt, List.flatMap_singleton, Edit.shift_zero]
    rfl
  · rfl

end Units

end Walk

namespace Transform

open Document (Region)

variable {o : Options} {filename : String} {source : List Char}

def Script.run (o : Options) (u : Script filename source) : Walk.Run :=
  Walk.scriptRun o {} u.region.start u.text u.stmts

def Script.scope (o : Options) (u : Script filename source) : Walk.Scope :=
  Walk.scriptScope o u.text u.stmts

/-- The nearest declaration of the name that is visible from the root scope of the script unwraps it. -/
def Script.Unwraps (o : Options) (u : Script filename source) (name : String) : Prop :=
  (u.run o).scopes.leave.resolve 0 name = some .unwrap

def isBareName (dialect : Dialect) (name : String) : Bool :=
  match parseExpr dialect name.toList with
  | .ok (.name id) => id == ⟨name, ⟨0, Text.width name.toList⟩⟩
  | _ => false

theorem parseExpr_of_isBareName {dialect : Dialect} {name : String}
    (h : isBareName dialect name = true) :
    parseExpr dialect name.toList = .ok (.name ⟨name, ⟨0, Text.width name.toList⟩⟩) := by
  unfold isBareName at h
  split at h
  · rename_i id hparse
    rw [hparse, beq_iff_eq.mp h]
  · cases h

theorem Script.unwraps_iff (u : Script filename source) (name : String) :
    u.Unwraps o name ↔ (u.scope o).Declares .unwrap name ∧ ¬ (u.scope o).Declares .known name := by
  have hresolve := @Walk.scriptRun_resolve o {} u.region.start u.text u.stmts [] 0 name rfl
  rw [Unwraps, run, hresolve, List.nil_append, Walk.bindsUnwrap_cons]
  simp [Walk.not_bindsUnwrap_nil, scope]

theorem Script.eq_of_single {r : Region}
    (hregions : Document.regionsOf? filename source = some [r]) (u v : Script filename source) :
    u = v := by
  have hregion (w : Script filename source) : w.region = r := by
    obtain ⟨regions, hsome, hmem⟩ := w.found
    obtain rfl : [r] = regions := Option.some.inj (hregions.symm.trans hsome)
    exact List.mem_singleton.mp hmem
  exact Script.eq_of_region ((hregion u).trans (hregion v).symm)

/-- A document with one region hands on the names of its script, and appends its values. -/
theorem transformFile_single {r : Region} {t : Transformed}
    (hregions : Document.regionsOf? filename source = some [r])
    (h : transformFile o filename source = .ok t) :
    (∃ u : Script filename source,
        t.unwrapBindings = (Walk.script o {} u.region.start u.text u.stmts).rootUnwraps ∧
        ∀ pos, .insertAfter pos ".value" ∈ t.edits ↔
          .insertAfter pos ".value" ∈ (Walk.script o {} u.region.start u.text u.stmts).edits.edits) ∨
      IsEmpty (Script filename source) ∧ t.unwrapBindings = [] ∧ t.edits = [] := by
  obtain ⟨found, hfound, h⟩ := transformFile_inv h
  obtain rfl : [r] = found := Option.some.inj (hregions.symm.trans hfound)
  obtain ⟨p, result, hfold, hresult, rfl⟩ := transformRegions_inv h
  have hregion : region o filename source {} r = .ok p := by
    simpa [List.foldlM_cons, List.foldlM_nil] using hfold
  rcases @region_outcomes o filename source _ hregions r (List.mem_singleton_self r) {} with
    ⟨u, rfl, hwalked⟩ | ⟨hnone, hleft⟩ | ⟨text, fault, _, _, _, hfault⟩
  · obtain rfl : Progress.after o {} u = p := Except.ok.inj (hwalked.symm.trans hregion)
    refine .inl ⟨u, rfl, fun pos => ?_⟩
    obtain ⟨tail, hfinal, htail⟩ := finalEdits_edits o (Progress.after o {} u)
    -- the declarations start on a line of their own
    have hbehind : .insertAfter pos ".value" ∉ tail := by
      intro he
      obtain ⟨stop, _, heq⟩ := htail _ he
      have hhead := congrArg (fun text => text.toList.head?) (Edit.insertAfter.inj heq).2
      simp at hhead
    rw [mem_splice_iff hresult, hfinal, List.mem_append, or_iff_left hbehind]
    rfl
  · obtain rfl : {} = p := Except.ok.inj (hleft.symm.trans hregion)
    refine .inr ⟨⟨fun u => ?_⟩, rfl, ?_⟩
    · obtain ⟨regions, hsome, hmem⟩ := u.found
      obtain rfl : [r] = regions := Option.some.inj (hregions.symm.trans hsome)
      exact hnone u (List.mem_singleton.mp hmem)
    · obtain rfl := Except.ok.inj hresult
      rfl
  · rw [hfault] at hregion
    cases hregion

/-- Text that is appended to a whole text. -/
theorem splice_behind (o : Options) (filename : String) (source : List Char) (text : String) :
    ∃ result, splice o filename source ⟨[.insertAfter (Text.width source) text]⟩ = .ok result ∧
      result.code = source ++ text.toList := by
  have hboundary := Text.isBoundary_width source
  have hfilled : Splice.RangesFilled [.insertAfter (Text.width source) text] := by
    simp [Splice.RangesFilled, Splice.replacement?]
  have hplaced : Splice.Placed source [.insertAfter (Text.width source) text] :=
    ⟨List.forall_mem_singleton.mpr (Nat.le_refl _), List.forall_mem_singleton.mpr hboundary,
      List.forall_mem_singleton.mpr hboundary, List.pairwise_singleton _ _,
      by simp [Splice.Clear, Splice.replacement?]⟩
  obtain ⟨result, hresult⟩ := @splice_of_placed o filename source ⟨_⟩ hplaced hfilled
  refine ⟨result, hresult, ?_⟩
  have hbehind := @Splice.byOffset_append source [] [] [.insertAfter 0 text] (by simp)
    (.inl (by simp))
  rw [List.append_nil, List.nil_append, Splice.byOffset_nil] at hbehind
  rw [(splice_code hfilled hresult).2]
  refine hbehind.trans ?_
  simp [Splice.byOffset, Splice.addedAt, Splice.afterAt, Splice.beforeAt, Splice.replacingAt,
    Splice.keptAt, Splice.replacement?]

/-- A name that is read as itself gets its value appended if it is one of the names given. -/
theorem transformExpression_bareName (hlexical : o.resolution = .lexical) {dialect : Dialect}
    {name : String} (hname : isBareName dialect name = true) (unwraps : List String) :
    ∃ t, transformExpression o filename dialect unwraps name.toList = .ok t ∧
      t.code = name.toList ++ if name ∈ unwraps then ".value".toList else [] := by
  have hedits := Walk.expression_name_edits o name.toList hlexical unwraps
    ⟨name, ⟨0, Text.width name.toList⟩⟩
  unfold transformExpression
  split
  · rename_i hskip
    have hempty : unwraps = [] := List.isEmpty_iff.mp (Bool.and_eq_true_iff.mp hskip).1
    exact ⟨_, rfl, by simp [Transformed.unchanged, hempty]⟩
  · rw [parseExpr_of_isBareName hname]
    dsimp only
    generalize (Walk.expression o unwraps name.toList _).edits = edits at hedits ⊢
    obtain ⟨edits⟩ := edits
    by_cases hmem : name ∈ unwraps
    · obtain rfl : edits = [.insertAfter (Text.width name.toList) ".value"] := by
        simpa [hmem] using hedits
      obtain ⟨result, hresult, hcode⟩ := splice_behind o filename name.toList ".value"
      exact ⟨_, by rw [hresult]; rfl, by simpa [hmem] using hcode⟩
    · obtain rfl : edits = [] := by simpa [hmem] using hedits
      exact ⟨_, rfl, by simp [Transformed.unchanged, hmem]⟩

/-- What a script with one region hands on are the names that its root scope declares as bindings to
unwrap. A reference from the root scope stands for a value if moreover the root scope does not declare
the name in the ordinary way, and a lone name gets its value appended if the name is handed on. So the
script and the expressions agree on a name if and only if the root scope does not declare it in both
ways. -/
theorem unwrapBindings_agree_iff {r : Region} {t : Transformed} (hlexical : o.resolution = .lexical)
    (hregions : Document.regionsOf? filename source = some [r])
    (h : transformFile o filename source = .ok t) :
    (IsEmpty (Script filename source) → t.unwrapBindings = [] ∧ t.edits = []) ∧
    (∀ u : Script filename source,
      (∀ pos, .insertAfter pos ".value" ∈ t.edits ↔ ∃ ref ∈ (u.run o).references,
        pos = u.region.start + ref.span.hi ∧
          (ref.classify (u.run o).scopes.leave (u.run o).marked o.resolution).needsValue = true) ∧
      (∀ ref ∈ (u.run o).references, ref.frame = 0 →
        (ref.isActive (u.run o).scopes.leave o.resolution = true ↔ u.Unwraps o ref.name)) ∧
      ∀ name, (name ∈ t.unwrapBindings ↔ (u.scope o).Declares .unwrap name) ∧
        (u.Unwraps o name ↔ name ∈ t.unwrapBindings ∧ ¬ (u.scope o).Declares .known name) ∧
        ((name ∈ t.unwrapBindings ↔ u.Unwraps o name) ↔
          ¬ ((u.scope o).Declares .unwrap name ∧ (u.scope o).Declares .known name))) ∧
    ∀ name dialect file, isBareName dialect name = true →
      ∃ t', transformExpression o file dialect t.unwrapBindings name.toList = .ok t' ∧
        t'.code = name.toList ++ if name ∈ t.unwrapBindings then ".value".toList else [] := by
  refine ⟨?_, ?_, fun name dialect file hname => transformExpression_bareName hlexical hname _⟩
  · intro hnone
    rcases transformFile_single hregions h with ⟨u, _⟩ | ⟨_, hbindings, hedits⟩
    · exact (hnone.false u).elim
    · exact ⟨hbindings, hedits⟩
  · intro u
    rcases transformFile_single hregions h with ⟨v, hbindings, hvalues⟩ | ⟨hnone, _⟩
    · obtain rfl : v = u := Script.eq_of_single hregions v u
      have hhanded (name : String) : name ∈ t.unwrapBindings ↔ (v.scope o).Declares .unwrap name := by
        rw [hbindings, Walk.mem_rootUnwraps]
        rfl
      have hunwraps (name : String) : v.Unwraps o name ↔
          name ∈ t.unwrapBindings ∧ ¬ (v.scope o).Declares .known name := by
        rw [v.unwraps_iff, hhanded]
      refine ⟨fun pos => ?_, fun ref _ hframe => ?_, fun name => ⟨hhanded name, hunwraps name, ?_⟩⟩
      · rw [hvalues, Walk.script_value_needed v.parsed]
        rfl
      · rw [hlexical, Reference.isActive, hframe, beq_iff_eq]
        rfl
      · rw [hunwraps, hhanded]
        tauto
    · exact (hnone.false u).elim

def redeclaredText : List Char :=
  "var a = $f(); var a = 1; a".toList

/-- The script leaves the name as it is, and hands it on all the same. -/
theorem unwrapBindings_agree_iff_redeclared :
    ∃ (t t' : Transformed) (u : Script "t.ts" redeclaredText),
      transformFile {} "t.ts" redeclaredText = .ok t ∧
      t.code = "var a = f(); var a = 1; a".toList ∧ ¬ u.Unwraps {} "a" ∧ "a" ∈ t.unwrapBindings ∧
      transformExpression {} "t.ts" .ts t.unwrapBindings "a".toList = .ok t' ∧
      t'.code = "a.value".toList := by
  have hregions : Document.regionsOf? "t.ts" redeclaredText = some [.whole redeclaredText .ts] := by
    decide +kernel
  obtain ⟨_, ht⟩ := @transformFile_of_edits {} "t.ts" redeclaredText _ [.remove 8 9] rfl hregions
    (by decide +kernel)
  have happly : EditSet.apply ⟨[.remove 8 9]⟩ redeclaredText =
      .ok ⟨"var a = f(); var a = 1; a".toList, [⟨0, 0, 0⟩, ⟨0, 8, 9⟩]⟩ := by cbv
  simp only [splice, EditSet.isEmpty, List.isEmpty_cons, Bool.false_eq_true, if_false, happly,
    Except.map] at ht
  obtain ⟨stmts, hparse, hboth⟩ := @exists_parse .ts redeclaredText (fun stmts =>
    let scopes := (Walk.scriptRun {} {} 0 redeclaredText stmts).scopes
    scopes.declares .unwrap "a" 0 && scopes.declares .known "a" 0) (by decide +kernel)
  have hname : isBareName .ts "a" = true := by decide +kernel
  let u : Script "t.ts" redeclaredText :=
    ⟨.whole redeclaredText .ts, redeclaredText, stmts, ⟨_, hregions, List.mem_singleton_self _⟩,
      by decide +kernel, by decide +kernel, hparse⟩
  have hdeclares (kind : BindingKind) : (u.scope {}).Declares kind "a" := by
    refine (Walk.scriptRun_declares {} {} 0 redeclaredText stmts kind "a").mp ?_
    rw [Bool.and_eq_true, Scopes.declares_iff, Scopes.declares_iff] at hboth
    cases kind
    · exact hboth.2
    · exact hboth.1
  obtain ⟨_, hscript, hexpressions⟩ := unwrapBindings_agree_iff rfl hregions ht
  obtain ⟨_, _, hnames⟩ := hscript u
  have hhanded := (hnames "a").1.mpr (hdeclares .unwrap)
  obtain ⟨t', ht', hcode⟩ := hexpressions "a" .ts "t.ts" hname
  refine ⟨_, t', u, ht, rfl, fun hunwraps => ?_, hhanded, ht', ?_⟩
  · exact ((hnames "a").2.1.mp hunwraps).2 (hdeclares .known)
  · rw [hcode, if_pos hhanded]
    rfl

end Transform

end RefSugar

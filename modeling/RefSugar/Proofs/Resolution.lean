import Mathlib.Data.List.Pairwise
import RefSugar.Proofs.Conflicts
import RefSugar.Proofs.Scoping

/-! Which references of a script get their value appended, by the outline of the script. Main
statement: exactly those that are bound, in the scopes of the outline, by a declaration to unwrap, that
are not meant as references themselves, and that stand outside of the attributes that are left
alone. -/
namespace RefSugar

open Syntax

namespace Walk

/-- Going outward through the scopes, the first one that declares the name declares it as a binding
to unwrap, and not as an ordinary one as well. -/
inductive BindsUnwrap (name : String) : List Scope → Prop
  | here {S : Scope} {outer : List Scope} (hunwrap : S.Declares .unwrap name)
    (hknown : ¬ S.Declares .known name) : BindsUnwrap name (S :: outer)
  | outer {S : Scope} {outer : List Scope} (hnone : ∀ kind, ¬ S.Declares kind name)
    (h : BindsUnwrap name outer) : BindsUnwrap name (S :: outer)

inductive Visits : List Piece → Setting → Visit → Prop
  | here {ps : List Piece} {s : Setting} {v : Visit} (hv : .part s v ∈ ps) : Visits ps s v
  | further {ps : List Piece} {s s' : Setting} {v v' : Visit} (hv : .part s v ∈ ps)
    (h : Visits (v.pieces s) s' v') : Visits ps s' v'

/-- The spans that a visit means as references: the argument of `$$`, and what is wrapped because of
a sigil behind the name of a callee, a function or an attribute. -/
def Visit.explicit (s : Setting) : Visit → List Span
  | .expr _ _ (.call _ _ callee args) =>
    if Sigil.isExplicitWrap (s.text callee.span) then
      (args.head?.bind Item.expr?).toList.map Expr.span
    else if Sigil.isAutoWrapCall (s.text callee.span) then (itemLeaves args).map Leaf.span
    else []
  | .stmt (.function _ name (.mk _ _ body)) =>
    if Sigil.isSigilName name.name then (returnLeaves body).map Leaf.span else []
  | .declarator _ (.mk _ (.name id) (some init)) =>
    if Sigil.isSigilName id.name && isFunctionValue init then (leaves init).map Leaf.span else []
  | .attr (.named (.plain id) true (some e)) =>
    if Sigil.isSigilAttribute id.name then (leaves e).map Leaf.span else []
  | _ => []

def Explicit (ps : List Piece) (a : Span) : Prop :=
  ∃ s v, Visits ps s v ∧ a ∈ v.explicit s

section Marks

variable {s : Setting} {a : Span}

theorem mark_mem_wrap {wrapFn : String} {parts : List Leaf} :
    .mark a ∈ wrap wrapFn parts ↔ a ∈ parts.map Leaf.span := by
  simp [wrap, eq_comm]

theorem mark_not_mem_declareAll {place : Place} {names : List String} :
    .mark a ∉ declareAll place names := by
  simp [declareAll]

theorem mark_ne_strip {span : Span} :
    .mark a ≠ stripLeading span ∧ .mark a ≠ stripTrailing span := by
  simp [stripLeading, stripTrailing]

theorem mark_mem_callEvents {chain : List Span} {settled : Bool} {span : Span} {link : Link}
    {callee : Expr} {args : List Item} :
    .mark a ∈ callEvents s settled callee args ↔
      a ∈ Visit.explicit s (.expr chain settled (.call span link callee args)) := by
  unfold callEvents Visit.explicit
  dsimp only
  by_cases hwrap : Sigil.isExplicitWrap (s.text callee.span) = true
  · simp [hwrap, eq_comm]
  · by_cases hauto : Sigil.isAutoWrapCall (s.text callee.span) = true
    · simp [hwrap, hauto, mark_mem_wrap, mark_ne_strip]
    · simp [hwrap, hauto, mark_ne_strip]

theorem mark_mem_functionValueEvents (place : Place) (span : Span) {target : Pattern}
    {init : Option Expr} :
    .mark a ∈ functionValueEvents s target init ↔
      a ∈ Visit.explicit s (.declarator place (.mk span target init)) := by
  unfold functionValueEvents Visit.explicit
  cases target with
  | name id =>
    cases init with
    | none => simp
    | some e =>
      cases e <;> simp [isFunctionValue]
      all_goals exact fun _ => by simp [mark_mem_wrap, mark_ne_strip]
  | _ => simp

/-- A value to be unwrapped is a call, and not a function. -/
theorem explicit_of_unwrapCallee {target : Pattern} {init : Option Expr} {callee : Expr}
    (h : unwrapCallee? s init = some callee) (place : Place) (span : Span) :
    Visit.explicit s (.declarator place (.mk span target init)) = [] := by
  obtain ⟨hcallee, _⟩ := Option.filter_eq_some_iff.mp h
  obtain ⟨e, rfl, hcallee⟩ := Option.bind_eq_some_iff.mp hcallee
  have hvalue : isFunctionValue e = false := by
    cases e <;> simp_all [declaredCallee?, isFunctionValue]
  cases target <;> simp [Visit.explicit, hvalue]

/-- A declaration means as references what it wraps. -/
theorem mark_mem_declarator {place : Place} {d : Declarator} :
    .event (.mark a) ∈ declaratorOuter s place d ↔
      a ∈ Visit.explicit s (.declarator place d) := by
  obtain ⟨span, target, init⟩ := d
  unfold declaratorOuter
  dsimp only
  cases hcallee : unwrapCallee? s init with
  | none =>
    simp [mark_not_mem_declareAll, ← mark_mem_functionValueEvents place span]
  | some callee =>
    rw [explicit_of_unwrapCallee hcallee]
    cases hown : unwrapEvents? s place span.hi callee target with
    | none => simp [hown, mark_not_mem_declareAll]
    | some own =>
      rcases (unwrapEvents?_cases hown).2 with ⟨id, rfl, rfl⟩ | ⟨plan, _, rfl⟩ <;>
        simp [hown, mark_ne_strip]

theorem mark_mem_attrEvents {name : AttrName} {braced : Bool} {value : Option Expr} :
    .mark a ∈ attrEvents s name braced value ↔
      a ∈ Visit.explicit s (.attr (.named name braced value)) := by
  cases name with
  | qualified span space => simp [attrEvents, Visit.explicit]
  | plain id =>
    cases braced <;> cases value <;> simp [attrEvents, Visit.explicit]
    · exact fun _ => mark_ne_strip.2
    · exact fun _ => by simp [mark_mem_wrap, mark_ne_strip]

/-- The marks that a visit makes itself. -/
theorem mark_mem_outer {v : Visit} : .event (.mark a) ∈ v.outer s ↔ a ∈ v.explicit s := by
  have hmention {m : Mention} : .mark a ≠ mention s m := nofun
  cases v with
  | expr chain settled e =>
    cases e with
    | call span link callee args =>
      simpa [Visit.outer, exprOuter] using mark_mem_callEvents
    | update span operand =>
      cases operand <;> simp [Visit.outer, exprOuter, Visit.explicit, hmention]
    | function span name fn | classDef span name cls =>
      cases name <;> simp [Visit.outer, exprOuter, Visit.explicit]
    | _ => simp [Visit.outer, exprOuter, Visit.explicit, hmention]
  | property p => cases p <;> simp [Visit.outer, propertyOuter, Visit.explicit, hmention]
  | target p => cases p <;> simp [Visit.outer, targetOuter, Visit.explicit, hmention]
  | targetField f => cases f <;> simp [Visit.outer, targetFieldOuter, Visit.explicit, hmention]
  | pattern p => cases p <;> simp [Visit.outer, patternOuter, Visit.explicit]
  | field f => cases f <;> simp [Visit.outer, fieldOuter, Visit.explicit]
  | func f => simp [Visit.outer, Visit.explicit]
  | cls c => cases c; simp [Visit.outer, Visit.explicit]
  | member m => cases m <;> simp [Visit.outer, memberOuter, Visit.explicit]
  | declarator place d => exact mark_mem_declarator
  | attr attr =>
    cases attr with
    | spread e => simp [Visit.outer, attrOuter, Visit.explicit]
    | named name braced value => simpa [Visit.outer, attrOuter] using mark_mem_attrEvents
  | stmt st =>
    cases st with
    | function span name fn =>
      obtain ⟨decorators, params, body⟩ := fn
      simp only [Visit.outer, stmtOuter, Visit.explicit, functionNameEvents]
      split <;> simp [mark_mem_wrap, mark_ne_strip]
    | resource span decls =>
      refine iff_of_false (fun h => ?_) (by simp [Visit.explicit])
      obtain ⟨d, _, h⟩ := List.mem_flatMap.mp h
      cases d
      simp [resourceOuter] at h
    | _ => simp [Visit.outer, stmtOuter, Visit.explicit, mark_not_mem_declareAll]

/-- A scope is opened and closed, and makes no mark of its own. -/
theorem mark_mem_trace_iff {v : Visit} : .mark a ∈ v.trace s ↔ .mark a ∈ expand (v.pieces s) := by
  rw [Visit.trace_eq, Visit.pieces, expand_append, List.mem_append, List.mem_append]
  cases v.scope? s <;> simp [Scope.trace, framed]

theorem mark_mem_pieces {v : Visit} : .event (.mark a) ∈ v.pieces s ↔ a ∈ v.explicit s := by
  rw [Visit.pieces, List.mem_append, mark_mem_outer]
  refine or_iff_left fun h => ?_
  obtain ⟨S, hS, h⟩ := List.mem_flatMap.mp h
  obtain ⟨name, heq⟩ := Visit.scope_event (Option.mem_toList.mp hS) h
  cases heq

theorem mark_mem_expand {ps : List Piece} :
    .mark a ∈ expand ps ↔ .event (.mark a) ∈ ps ∨ ∃ s v, .part s v ∈ ps ∧ .mark a ∈ v.trace s := by
  refine ⟨mem_expand, ?_⟩
  rintro (h | ⟨s, v, hv, h⟩)
  · exact List.mem_flatMap.mpr ⟨_, h, by simp [Piece.trace]⟩
  · exact List.mem_flatMap.mpr ⟨_, hv, h⟩

theorem explicit_of_mark (s : Setting) (v : Visit) (h : .mark a ∈ v.trace s) :
    a ∈ v.explicit s ∨ Explicit (v.pieces s) a := by
  induction s, v using Visit.induct with
  | step s v ih =>
    rcases mark_mem_expand.mp (mark_mem_trace_iff.mp h) with h | ⟨s', v', hv', h⟩
    · exact .inl (mark_mem_pieces.mp h)
    · rcases ih s' v' hv' h with ha | ⟨t, w, hw, ha⟩
      · exact .inr ⟨s', v', .here hv', ha⟩
      · exact .inr ⟨t, w, .further hv' hw, ha⟩

theorem mark_of_comes {ps : List Piece} {v : Visit} (h : Visits ps s v) (ha : a ∈ v.explicit s) :
    .mark a ∈ expand ps := by
  induction h with
  | here hv =>
    have hown := mark_mem_expand.mpr (.inl (mark_mem_pieces.mpr ha))
    exact mark_mem_expand.mpr (.inr ⟨_, _, hv, mark_mem_trace_iff.mpr hown⟩)
  | further hv _ ih => exact mark_mem_expand.mpr (.inr ⟨_, _, hv, mark_mem_trace_iff.mpr (ih ha)⟩)

/-- A walk marks the spans that are meant as references. -/
theorem mark_mem_traceStmts {stmts : List Stmt} :
    .mark a ∈ traceStmts s stmts ↔ Explicit (stmtPieces s stmts) a := by
  rw [← expand_stmtPieces]
  constructor
  · intro h
    rcases mark_mem_expand.mp h with h | ⟨s', v, hv, h⟩
    · simp at h
    · rcases explicit_of_mark s' v h with ha | ⟨t, w, hw, ha⟩
      · exact ⟨s', v, .here hv, ha⟩
      · exact ⟨t, w, .further hv hw, ha⟩
  · rintro ⟨t, w, hw, ha⟩
    exact mark_of_comes hw ha

end Marks

section Resolving

variable {scopes : Scopes} {name : String}

/-- One step outward: the frame answers, or its parent is asked. -/
theorem resolveUpTo_iff {id fuel : Nat} {f : Frame} (hf : scopes.frames[id]? = some f) :
    scopes.resolveUpTo name (fuel + 1) (some id) = some .unwrap ↔
      scopes.Declares id .unwrap name ∧ ¬ scopes.Declares id .known name ∨
        (∀ kind, ¬ scopes.Declares id kind name) ∧
          scopes.resolveUpTo name fuel f.parent = some .unwrap := by
  have hdeclares (kind : BindingKind) : scopes.Declares id kind name ↔ name ∈ f.names kind := by
    simp [Scopes.Declares, hf]
  obtain ⟨hsome, hnone⟩ := f.lookup_iff name
  have hkinds : (∀ kind, ¬ scopes.Declares id kind name) ↔ f.lookup name = none := by
    rw [hnone]
    constructor
    · intro h
      exact ⟨fun hu => h .unwrap ((hdeclares .unwrap).mpr hu),
        fun hk => h .known ((hdeclares .known).mpr hk)⟩
    · rintro ⟨hu, hk⟩ (_ | _)
      · exact fun h => hk ((hdeclares .known).mp h)
      · exact fun h => hu ((hdeclares .unwrap).mp h)
  have hhere : scopes.Declares id .unwrap name ∧ ¬ scopes.Declares id .known name ↔
      f.lookup name = some .unwrap := by
    rw [hsome, hdeclares, hdeclares]
    rfl
  rw [hkinds, hhere, Scopes.resolveUpTo, hf]
  dsimp only
  cases f.lookup name <;> simp

theorem bindsUnwrap_cons {S : Scope} {outer : List Scope} :
    BindsUnwrap name (S :: outer) ↔ S.Declares .unwrap name ∧ ¬ S.Declares .known name ∨
      (∀ kind, ¬ S.Declares kind name) ∧ BindsUnwrap name outer := by
  constructor
  · intro h
    cases h with
    | here hunwrap hknown => exact .inl ⟨hunwrap, hknown⟩
    | outer hnone h => exact .inr ⟨hnone, h⟩
  · rintro (⟨hunwrap, hknown⟩ | ⟨hnone, h⟩)
    · exact .here hunwrap hknown
    · exact .outer hnone h

theorem not_bindsUnwrap_nil : ¬ BindsUnwrap name [] :=
  nofun

/-- A name is resolved along the scopes that a frame is linked to, up to the root. Parents have
smaller numbers, so that the fuel suffices. -/
theorem resolveUpTo_linked {root : Scope} {path : List Scope} {id fuel : Nat}
    (hroot : ∀ kind name, scopes.Declares 0 kind name ↔ root.Declares kind name)
    (hshape : scopes.shape[0]?.map Prod.snd = some none)
    (hlinked : Linked scopes 1 0 id path) (hfuel : id < fuel) :
    scopes.resolveUpTo name fuel (some id) = some .unwrap ↔ BindsUnwrap name (path ++ [root]) := by
  have hparent (id : Nat) :
      scopes.shape[id]?.map Prod.snd = (scopes.frames[id]?).map Frame.parent := by
    rw [Scopes.shape_getElem?, Option.map_map]
    rfl
  induction path generalizing id fuel with
  | nil =>
    obtain rfl : id = 0 := hlinked
    obtain ⟨fuel, rfl⟩ : ∃ n, fuel = n + 1 := ⟨fuel - 1, by omega⟩
    obtain ⟨f, hf, hnone⟩ := Option.map_eq_some_iff.mp ((hparent 0).symm.trans hshape)
    have hend : scopes.resolveUpTo name fuel f.parent = none := by
      rw [hnone]
      cases fuel <;> rfl
    rw [resolveUpTo_iff hf, hend, List.nil_append, bindsUnwrap_cons]
    simp [hroot, not_bindsUnwrap_nil]
  | cons S outer ih =>
    obtain ⟨_, hid, hdeclares, parent, hlt, hbind, houter⟩ := hlinked
    obtain ⟨fuel, rfl⟩ : ∃ n, fuel = n + 1 := ⟨fuel - 1, by omega⟩
    have hf : scopes.frames[id]? = some (scopes.frames[id]) := List.getElem?_eq_getElem hid
    have hnext : scopes.frames[id].parent = some parent := by
      simpa [Scopes.shape_getElem?, hf] using hbind
    have hrest : scopes.resolveUpTo name fuel (some parent) = some .unwrap ↔
        BindsUnwrap name (outer ++ [root]) := ih houter (by omega)
    rw [resolveUpTo_iff hf, hnext, List.cons_append, bindsUnwrap_cons]
    simp only [hdeclares, hrest]

end Resolving

section Scripts

variable (o : Options) (session : Session) (base : Nat) (source : List Char) (stmts : List Stmt)

def scriptPieces : List Piece :=
  stmtPieces (setting o source) stmts

def scriptScope : Scope :=
  ⟨.program, scriptPieces o source stmts⟩

theorem start_isOpen : (Run.start base .program session).scopes.IsOpen := by
  constructor <;> simp [Run.start, Scopes.root, Scopes.enter, FrameKind.isHoistTarget]

/-- A script is walked as its outline tells. -/
theorem scriptRun_walked : Walked (Declares (scriptPieces o source stmts))
    (Occurs (scriptPieces o source stmts)) (Run.start base .program session)
    (scriptRun o session base source stmts) := by
  rw [scriptRun, ← expand_stmtPieces]
  exact walked_pieces (fun ev h => by simp [scriptPieces] at h) (fun s v _ => walked_visit s v)
    (start_isOpen session base)

/-- The root frame of a script declares what the scope of the script declares. -/
theorem scriptRun_declares (kind : BindingKind) (name : String) :
    (scriptRun o session base source stmts).scopes.Declares 0 kind name ↔
      (scriptScope o source stmts).Declares kind name := by
  have hplace (place : Place) : place.frame (Run.start base .program session).scopes = 0 := by
    cases place <;> rfl
  rw [(scriptRun_walked o session base source stmts).names 0
    (by simp [Run.start, Scopes.root, Scopes.enter])]
  have hempty : ¬ (Run.start base .program session).scopes.Declares 0 kind name := by
    cases kind <;>
      simp [Scopes.Declares, Run.start, Scopes.root, Scopes.enter, Frame.names]
  simp [hempty, hplace, Scope.Declares, scriptScope, FrameKind.isHoistTarget]

/-- A name in a frame of a script is resolved along the scopes that the frame is linked to. -/
theorem scriptRun_resolve {path : List Scope} {id : Nat} (name : String)
    (hlinked : Linked (scriptRun o session base source stmts).scopes 1 0 id path) :
    (scriptRun o session base source stmts).scopes.leave.resolve id name = some .unwrap ↔
      BindsUnwrap name (path ++ [scriptScope o source stmts]) := by
  have hwalked := scriptRun_walked o session base source stmts
  have hshape : (scriptRun o session base source stmts).scopes.shape[0]?.map Prod.snd = some none := by
    rw [hwalked.grows.shape_eq (by simp [Run.start, Scopes.root, Scopes.enter])]
    rfl
  have hid : id < (scriptRun o session base source stmts).scopes.frames.length + 1 := by
    cases path with
    | nil => exact hlinked ▸ Nat.succ_pos _
    | cons S outer => exact Nat.lt_succ_of_lt hlinked.2.1
  rw [Scopes.resolve_leave, Scopes.resolve]
  exact resolveUpTo_linked (scriptRun_declares o session base source stmts) hshape hlinked hid

theorem step_marked (r : Run) (ev : Event) (a : Span) :
    a ∈ (r.step source ev).marked ↔ a ∈ r.marked ∨ ev = .mark a := by
  cases ev with
  | mark span => simp [Run.step, eq_comm]
  | unpack place plan stop => simp [Run.step, Run.unpack_eq]
  | _ => simp [Run.step, Run.emit, Run.known, Run.unwrap, Run.refer]

theorem steps_marked (events : List Event) (r : Run) (a : Span) :
    a ∈ (r.steps source events).marked ↔ a ∈ r.marked ∨ .mark a ∈ events := by
  induction events generalizing r with
  | nil => simp [Run.steps]
  | cons ev events ih =>
    rw [Run.steps, List.foldl_cons, ← Run.steps, ih, step_marked, List.mem_cons, or_assoc]
    simp [eq_comm]

theorem scriptRun_marked (a : Span) : a ∈ (scriptRun o session base source stmts).marked ↔
    Explicit (scriptPieces o source stmts) a := by
  rw [scriptRun, steps_marked, mark_mem_traceStmts]
  simp [Run.start, scriptPieces]

/-- References that end at the same place are the same. -/
theorem references_inj (hnested : NestedIn source stmts) {ref ref' : Reference}
    (href : ref ∈ (scriptRun o session base source stmts).references)
    (href' : ref' ∈ (scriptRun o session base source stmts).references)
    (hhi : ref.span.hi = ref'.span.hi) : ref = ref' := by
  have htidy := (laid_carelessly (s := setting o source) hnested).solids_tidy
  have hsub := namesOf_sublist (traceStmts (setting o source) stmts)
  rw [← scriptRun_references o session base] at hsub
  have hapart := List.pairwise_map.mp ((htidy.apart fun _ => id).sublist hsub)
  have hfilled := htidy.range_filled _ (hsub.subset (List.mem_map_of_mem href))
  have hfilled' := htidy.range_filled _ (hsub.subset (List.mem_map_of_mem href'))
  have : Std.Symm fun a b : Reference => a.span.Apart b.span := ⟨fun _ _ => Or.symm⟩
  refine Decidable.byContradiction fun hne => ?_
  rcases hapart.forall href href' hne with h | h <;> omega

end Scripts

end Walk

namespace Edit

/-- Only an insertion behind an offset is issued as one. -/
theorem insertAfter_mem_issued {e : Edit} {pos : Nat} {text : String} (htext : text ≠ "") :
    .insertAfter pos text ∈ e.issued ↔ e = .insertAfter pos text := by
  constructor
  · intro h
    rcases mem_issued h with ⟨heq, _⟩ | ⟨_, _, _, _, _, heq⟩
    · exact heq.symm
    · cases heq
  · rintro rfl
    rw [issued_of_isFilled (by simpa [isFilled] using htext)]
    exact List.mem_singleton_self _

theorem insertAfter_mem_issuedAt {base pos : Nat} {text : String} {edits : List Edit}
    (htext : text ≠ "") :
    .insertAfter (base + pos) text ∈ Walk.Run.issuedAt base edits ↔ .insertAfter pos text ∈ edits := by
  simp only [Walk.Run.issuedAt, List.mem_flatMap, insertAfter_mem_issued htext]
  constructor
  · rintro ⟨e, he, hshift⟩
    cases e <;> simp [shift] at hshift
    obtain ⟨rfl, rfl⟩ := hshift
    exact he
  · intro h
    exact ⟨_, h, rfl⟩

end Edit

namespace Unpack.Plan

theorem declaration_head (source : List Char) (shape : Shape) (temp : String)
    (seen : List FieldKey) (b : Binding) :
    (declaration source shape temp seen b).toList.head? = some '\n' := by
  cases b <;> unfold declaration <;> simp [String.append_assoc]

/-- Declarations behind a temporary start on a line of their own. -/
theorem render_head (source : List Char) (temp : String) (p : Plan) :
    p.render source temp = "" ∨ (p.render source temp).toList.head? = some '\n' := by
  obtain ⟨shape, span, bindings⟩ := p
  cases bindings with
  | nil => exact .inl rfl
  | cons b bs =>
    have hhead := declaration_head source shape temp [] b
    unfold render declarations
    exact .inr (by simp [hhead])

/-- They are neither the end of a wrapping nor a value. -/
theorem render_ne (source : List Char) (temp : String) (p : Plan) {text : String}
    (htext : text = ")" ∨ text = ".value") : p.render source temp ≠ text := by
  rintro rfl
  rcases p.render_head source temp with h | h <;> rcases htext with htext | htext <;>
    simp [htext] at h

end Unpack.Plan

theorem Session.importStatement_head {s s' : Session} {requested : List Primitive}
    {runtime statement : String}
    (h : s.importStatement requested runtime = (some statement, s')) :
    statement.toList.head? = some 'i' := by
  simp only [importStatement] at h
  split at h
  · cases h
  · obtain ⟨rfl, _⟩ := by simpa using h
    simp

namespace Walk

section Values

variable (o : Options) (session : Session) (base : Nat) (source : List Char) (stmts : List Stmt)

/-- No event appends a value by itself. -/
theorem value_not_mem_event (hnested : NestedIn source stmts) {event : Event} {pos : Nat}
    {temp : String} (hevent : event ∈ traceStmts (setting o source) stmts) :
    .insertAfter pos ".value" ∉ event.edits source temp := by
  intro he
  cases event with
  | edit e =>
    obtain rfl : Edit.insertAfter pos ".value" = e := List.mem_singleton.mp he
    rcases (laid_carelessly (s := setting o source) hnested).edit_forms hevent with
      ⟨start, stop, heq⟩ | ⟨leaf, wrapFn, hmem⟩
    · cases heq
    · cases leaf <;> simp [Leaf.edits] at hmem
  | unpack place plan stop =>
    obtain ⟨_, hrender⟩ : pos = stop ∧ ".value" = plan.render source temp := by
      simpa [Event.edits] using he
    exact plan.render_ne source temp (.inr rfl) hrender.symm
  | _ => simp [Event.edits] at he

theorem needsValue_iff (ref : Reference) (c : Reference.Class) (pos : Nat) :
    .insertAfter pos ".value" ∈ ref.editsFor c ↔ ref.span.hi = pos ∧ c.needsValue = true := by
  cases c <;> simp [Reference.editsFor, Reference.Class.needsValue, eq_comm]

/-- What a script appends a value to: the references whose class asks for it. -/
theorem value_mem_iff (hnested : NestedIn source stmts) (pos : Nat) :
    .insertAfter (base + pos) ".value" ∈ (script o session base source stmts).edits.edits ↔
      ∃ ref ∈ (scriptRun o session base source stmts).references, ref.span.hi = pos ∧
        (ref.classify (scriptRun o session base source stmts).scopes.leave
          (scriptRun o session base source stmts).marked o.resolution).needsValue = true := by
  obtain ⟨emitted, imports, hedits, _, hevents, himports⟩ :=
    script_edits o session base source stmts
  have hemitted : .insertAfter pos ".value" ∉ emitted := by
    intro he
    obtain ⟨event, hevent, temp, he⟩ := hevents _ he
    exact value_not_mem_event o source stmts hnested hevent he
  have himport : .insertAfter (base + pos) ".value" ∉ imports := by
    intro he
    obtain ⟨statement, new, himport, heq⟩ := himports _ he
    obtain ⟨_, rfl⟩ := Edit.insertAfter.inj heq
    have hhead := Session.importStatement_head himport
    simp at hhead
  have hvalue : ".value" ≠ "" := by decide
  rw [hedits, List.mem_append, List.mem_append, Edit.insertAfter_mem_issuedAt hvalue,
    Edit.insertAfter_mem_issuedAt hvalue]
  simp only [hemitted, himport, false_or, or_false, Run.resolved, List.mem_flatMap, needsValue_iff]

/-- The class of a reference asks for its value unless something speaks against it. -/
theorem classify_needsValue_iff (scopes : Scopes) (marked : List Span) (ref : Reference) :
    (ref.classify scopes marked .lexical).needsValue = true ↔
      scopes.resolve ref.frame ref.name = some .unwrap ∧
        (∀ a ∈ ref.span :: ref.chain, a ∉ marked) ∧ ref.isExempt = false := by
  have hexplicit : (ref.span :: ref.chain).any marked.contains = false ↔
      ∀ a ∈ ref.span :: ref.chain, a ∉ marked := by
    simp
  rw [← hexplicit]
  unfold Reference.classify Reference.isActive
  by_cases hactive : scopes.resolve ref.frame ref.name = some .unwrap
  · cases (ref.span :: ref.chain).any marked.contains
    · cases ref.isExempt
      · cases ref.isShorthand <;> cases ref.isWrite <;> simp [hactive, Reference.Class.needsValue]
      · simp [hactive, Reference.Class.needsValue]
    · simp [hactive, Reference.Class.needsValue]
  · simp [hactive, Reference.Class.needsValue]

/-- Every reference of the tree is recorded, and the scopes around it, what is meant as a reference and
the attributes that are left alone decide whether its value is appended. -/
theorem value_of_occurs (hlexical : o.resolution = .lexical) (hnested : NestedIn source stmts)
    {path : List Scope} {m : Mention} (hm : Occurs (scriptPieces o source stmts) path m) :
    (∃ ref ∈ (scriptRun o session base source stmts).references, Refers m ref) ∧
      (.insertAfter (base + m.id.span.hi) ".value" ∈ (script o session base source stmts).edits.edits ↔
        BindsUnwrap m.id.name (path ++ [scriptScope o source stmts]) ∧
          (∀ a ∈ m.id.span :: m.chain, ¬ Explicit (scriptPieces o source stmts) a) ∧
          m.isExempt = false) := by
  obtain ⟨new, hnew, _, hmentions⟩ := (scriptRun_walked o session base source stmts).records
  have hnew : (scriptRun o session base source stmts).references = new := hnew
  obtain ⟨ref, href, hrefers, hlinked⟩ := hmentions path m hm
  rw [← hnew] at href
  refine ⟨⟨ref, href, hrefers⟩, ?_⟩
  obtain ⟨hname, hspan, hchain, hexempt⟩ := hrefers
  have hclass := classify_needsValue_iff (scriptRun o session base source stmts).scopes.leave
    (scriptRun o session base source stmts).marked ref
  rw [scriptRun_resolve o session base source stmts ref.name hlinked, hname, hspan, hchain,
    hexempt] at hclass
  simp only [scriptRun_marked] at hclass
  rw [value_mem_iff o session base source stmts hnested, ← hclass, hlexical]
  constructor
  · rintro ⟨ref', href', hhi, hneeds⟩
    obtain rfl : ref' = ref :=
      references_inj o session base source stmts hnested href' href (hspan ▸ hhi)
    exact hneeds
  · exact fun hneeds => ⟨ref, href, by rw [hspan], hneeds⟩

end Values

end Walk

end RefSugar

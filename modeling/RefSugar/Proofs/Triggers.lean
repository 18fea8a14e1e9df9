import RefSugar.Proofs.Outline
import RefSugar.Proofs.WalkLayout

/-! What a visit does by itself. It mentions names, it declares ordinary ones, and it does what a
sigil gives rise to: it takes sigils away, it wraps leaves, and it unwraps or unpacks a declaration.
Whatever holds of all of these holds of all events of a walk. -/
namespace RefSugar.Walk

open Syntax

def isFunctionValue : Expr → Bool
  | .arrow _ _ _ | .arrowTo _ _ _ | .function _ _ _ => true
  | _ => false

def Visit.mentioned : Visit → List Ident
  | .expr _ _ (.name id) | .expr _ _ (.update _ (.name id)) | .property (.shorthand id)
  | .target (.name id) | .targetField (.shorthand id _) => [id]
  | _ => []

/-- The names that a visit takes the last byte of: those of functions and attributes with a sigil
behind them. -/
def Visit.strips : Visit → List Ident
  | .stmt (.function _ id _) => if Sigil.isSigilName id.name then [id] else []
  | .declarator _ (.mk _ (.name id) (some init)) =>
    if Sigil.isSigilName id.name && isFunctionValue init then [id] else []
  | .attr (.named (.plain id) true _) => if Sigil.isSigilAttribute id.name then [id] else []
  | _ => []

/-- What a visit wraps because of a sigil behind the name of a callee, a function or an attribute. -/
def Visit.wrapped (s : Setting) : Visit → List Leaf
  | .expr _ _ (.call _ _ callee args) =>
    if Sigil.isExplicitWrap (s.text callee.span) then []
    else if Sigil.isAutoWrapCall (s.text callee.span) then itemLeaves args
    else []
  | .stmt (.function _ name (.mk _ _ body)) =>
    if Sigil.isSigilName name.name then returnLeaves body else []
  | .declarator _ (.mk _ (.name id) (some init)) =>
    if Sigil.isSigilName id.name && isFunctionValue init then Walk.leaves init else []
  | .attr (.named (.plain id) true (some e)) =>
    if Sigil.isSigilAttribute id.name then Walk.leaves e else []
  | _ => []

def declaratorEvents (s : Setting) (place : Place) : Declarator → List Event
  | .mk span target init =>
    match unwrapCallee? s init with
    | none => functionValueEvents s target init
    | some callee => (unwrapEvents? s place span.hi callee target).getD []

/-- The events that a sigil gives rise to at a visit. -/
def Visit.triggered (s : Setting) : Visit → List Event
  | .expr _ settled (.call _ _ callee args) => callEvents s settled callee args
  | .declarator place d => declaratorEvents s place d
  | .attr (.named name braced value) => attrEvents s name braced value
  | .stmt (.function _ name (.mk _ _ body)) => functionNameEvents s name body
  | _ => []

def Visit.Calls (v : Visit) (callee : Expr) : Prop :=
  ∃ chain settled span link args, v = .expr chain settled (.call span link callee args)

/-- The visit takes away the sigil in front of the callee. A call does if that is a name, a
declaration whatever it is. -/
inductive Visit.Unwraps (s : Setting) : Visit → Expr → Prop
  | call {chain : List Span} {span : Span} {link : Link} {callee : Expr} {args : List Item}
    (hname : isName callee = true) (h : Sigil.isUnwrapCall s.ignore (s.text callee.span) = true) :
    Visit.Unwraps s (.expr chain false (.call span link callee args)) callee
  | declared {place : Place} {span : Span} {target : Pattern} {init : Option Expr} {callee : Expr}
    (hcallee : unwrapCallee? s init = some callee) (htakes : takesSigil s target = true) :
    Visit.Unwraps s (.declarator place (.mk span target init)) callee

/-- The kinds of events that a sigil gives rise to, and what speaks for each of them. -/
inductive Visit.Triggers (s : Setting) (v : Visit) : Event → Prop
  | mark (span : Span) : v.Triggers s (.mark span)
  | unwrap (place : Place) (name : String) : v.Triggers s (.unwrap place name)
  /-- A leaf is wrapped. -/
  | wrap {leaf : Leaf} {e : Edit} (hleaf : leaf ∈ v.wrapped s)
    (he : e ∈ leaf.edits s.options.wrapFn) : v.Triggers s (.edit e)
  /-- A name loses its last byte. -/
  | strip {id : Ident} (hid : id ∈ v.strips) : v.Triggers s (stripTrailing id.span)
  /-- A callee loses the sigil in front. -/
  | front {callee : Expr} (h : v.Unwraps s callee) : v.Triggers s (stripLeading callee.span)
  /-- A callee loses the sigil behind. -/
  | back {callee : Expr} (hcall : v.Calls callee)
    (h : Sigil.isAutoWrapCall (s.text callee.span) = true) :
    v.Triggers s (stripTrailing callee.span)
  /-- The name `$$` goes away. -/
  | erase {callee : Expr} (hcall : v.Calls callee)
    (h : Sigil.isExplicitWrap (s.text callee.span) = true) :
    v.Triggers s (.edit (.remove callee.span.lo callee.span.hi))
  | unpack {place : Place} {span : Span} {target : Pattern} {init : Option Expr}
    {plan : Unpack.Plan} (hv : v = .declarator place (.mk span target init))
    (hplan : Unpack.plan? s.source target = some plan) : v.Triggers s (.unpack place plan span.hi)

section Names

/-- The names that lose their last byte are those of functions and of attributes in braces. -/
theorem strips_cases {v : Visit} {id : Ident} (h : id ∈ v.strips) :
    (∃ span fn, v = .stmt (.function span id fn) ∧ Sigil.isSigilName id.name = true) ∨
      (∃ place span init, v = .declarator place (.mk span (.name id) (some init)) ∧
        Sigil.isSigilName id.name = true ∧ isFunctionValue init = true) ∨
      ∃ value, v = .attr (.named (.plain id) true value) ∧
        Sigil.isSigilAttribute id.name = true := by
  unfold Visit.strips at h
  split at h
  · rename_i span name fn
    obtain ⟨hsigil, rfl⟩ : Sigil.isSigilName name.name = true ∧ id = name := by simpa using h
    exact .inl ⟨span, fn, rfl, hsigil⟩
  · rename_i place span name init
    obtain ⟨⟨hsigil, hvalue⟩, rfl⟩ :
        (Sigil.isSigilName name.name = true ∧ isFunctionValue init = true) ∧ id = name := by
      simpa using h
    exact .inr (.inl ⟨place, span, init, rfl, hsigil, hvalue⟩)
  · rename_i name value
    obtain ⟨hsigil, rfl⟩ : Sigil.isSigilAttribute name.name = true ∧ id = name := by simpa using h
    exact .inr (.inr ⟨value, rfl, hsigil⟩)
  · cases h

end Names

section Triggers

variable {s : Setting} {v : Visit} {ev : Event}

theorem Visit.Unwraps.isUnwrapCall {callee : Expr} (h : v.Unwraps s callee) :
    Sigil.isUnwrapCall s.ignore (s.text callee.span) = true := by
  cases h with
  | call hname h => exact h
  | declared hcallee htakes => exact (Option.filter_eq_some_iff.mp hcallee).2

theorem triggers_of_wrap {parts : List Leaf} (hparts : parts ⊆ v.wrapped s)
    (h : ev ∈ wrap s.options.wrapFn parts) : v.Triggers s ev := by
  obtain ⟨leaf, hleaf, h⟩ := List.mem_flatMap.mp h
  rcases List.mem_append.mp h with h | h
  · obtain ⟨e, he, rfl⟩ := List.mem_map.mp h
    exact .wrap (hparts hleaf) he
  · rw [List.mem_singleton.mp h]
    exact .mark leaf.span

/-- The last byte of a name goes away, and leaves are wrapped. -/
theorem triggers_of_sigil {id : Ident} {parts : List Leaf} (hid : id ∈ v.strips)
    (hparts : parts ⊆ v.wrapped s)
    (h : ev ∈ stripTrailing id.span :: wrap s.options.wrapFn parts) : v.Triggers s ev := by
  rcases List.mem_cons.mp h with rfl | h
  · exact .strip hid
  · exact triggers_of_wrap hparts h

/-- A call gives rise to what its callee speaks for. -/
theorem triggers_of_call {chain : List Span} {settled : Bool} {span : Span} {link : Link}
    {callee : Expr} {args : List Item} (h : ev ∈ callEvents s settled callee args) :
    (Visit.expr chain settled (.call span link callee args)).Triggers s ev := by
  have hcall : (Visit.expr chain settled (.call span link callee args)).Calls callee :=
    ⟨_, _, _, _, _, rfl⟩
  unfold callEvents at h
  dsimp only at h
  split at h
  · rename_i hexplicit
    rcases List.mem_append.mp h with h | h
    · obtain ⟨e, _, rfl⟩ := List.mem_map.mp h
      exact .mark e.span
    · rw [List.mem_singleton.mp h]
      exact .erase hcall hexplicit
  · rename_i hexplicit
    rcases List.mem_append.mp h with h | h
    · split at h
      · rename_i hleading
        simp only [Bool.and_eq_true, Bool.not_eq_true'] at hleading
        rw [List.mem_singleton.mp h]
        obtain ⟨⟨rfl, hname⟩, hunwrap⟩ := hleading
        exact .front (.call hname hunwrap)
      · cases h
    · split at h
      · rename_i htrailing
        rcases List.mem_append.mp h with h | h
        · split at h
          · rw [List.mem_singleton.mp h]
            exact .back hcall htrailing
          · cases h
        · exact triggers_of_wrap (by simp [Visit.wrapped, hexplicit, htrailing]) h
      · cases h

theorem triggers_of_functionValue {place : Place} {span : Span} {target : Pattern}
    {init : Option Expr} (h : ev ∈ functionValueEvents s target init) :
    (Visit.declarator place (.mk span target init)).Triggers s ev := by
  unfold functionValueEvents at h
  split at h
  all_goals
    first
    | cases h
    | split at h
      · rename_i hsigil
        exact triggers_of_sigil (by simp [Visit.strips, hsigil, isFunctionValue])
          (by simp [Visit.wrapped, hsigil, isFunctionValue]) h
      · cases h

/-- So does a declaration, through its value or its name. -/
theorem triggers_of_declarator {place : Place} {d : Declarator}
    (h : ev ∈ declaratorEvents s place d) : (Visit.declarator place d).Triggers s ev := by
  obtain ⟨span, target, init⟩ := d
  unfold declaratorEvents at h
  dsimp only at h
  split at h
  · exact triggers_of_functionValue h
  · rename_i callee hcallee
    cases hown : unwrapEvents? s place span.hi callee target with
    | none => simp [hown] at h
    | some own =>
      have h : ev ∈ own := by simpa [hown] using h
      have hfront : (Visit.declarator place (.mk span target init)).Triggers s
          (stripLeading callee.span) :=
        .front (.declared hcallee (unwrapEvents?_cases hown).1)
      rcases (unwrapEvents?_cases hown).2 with ⟨id, rfl, rfl⟩ | ⟨plan, hplan, rfl⟩
      · rcases List.mem_cons.mp h with rfl | h
        · exact .unwrap place id.name
        · exact List.mem_singleton.mp h ▸ hfront
      · rcases List.mem_cons.mp h with rfl | h
        · exact .unpack rfl hplan
        · exact List.mem_singleton.mp h ▸ hfront

theorem triggers_of_attr {name : AttrName} {braced : Bool} {value : Option Expr}
    (h : ev ∈ attrEvents s name braced value) :
    (Visit.attr (.named name braced value)).Triggers s ev := by
  unfold attrEvents at h
  cases name with
  | qualified span space => cases h
  | plain id =>
    dsimp only at h
    split at h
    · rename_i hsigil
      simp only [Bool.and_eq_true] at hsigil
      obtain ⟨rfl, hsigil⟩ := hsigil
      have hid : id ∈ (Visit.attr (.named (.plain id) true value)).strips := by
        simp [Visit.strips, hsigil]
      cases value with
      | none => exact @triggers_of_sigil s _ ev id [] hid (List.nil_subset _) h
      | some e => exact triggers_of_sigil hid (by simp [Visit.wrapped, hsigil]) h
    · cases h

/-- What a sigil gives rise to is of one of these kinds. -/
theorem triggers_of_mem (h : ev ∈ v.triggered s) : v.Triggers s ev := by
  unfold Visit.triggered at h
  split at h
  · exact triggers_of_call h
  · exact triggers_of_declarator h
  · exact triggers_of_attr h
  · unfold functionNameEvents at h
    split at h
    · rename_i hsigil
      exact triggers_of_sigil (by simp [Visit.strips, hsigil]) (by simp [Visit.wrapped, hsigil]) h
    · cases h
  · cases h

theorem Visit.Triggers.names (h : v.Triggers s ev) : ev.names = [] := by
  cases h <;> rfl

end Triggers

section Events

variable {s : Setting} {ev : Event}

theorem known_of_declareAll {place : Place} {names : List String} (h : ev ∈ declareAll place names) :
    ∃ place name, ev = .known place name := by
  obtain ⟨name, _, rfl⟩ := List.mem_map.mp h
  exact ⟨place, name, rfl⟩

/-- Besides declaring ordinary names, a declarator does only what a sigil asks for. -/
theorem declarator_event {place : Place} {d : Declarator}
    (h : .event ev ∈ declaratorOuter s place d) :
    (∃ place name, ev = .known place name) ∨ ev ∈ declaratorEvents s place d := by
  obtain ⟨span, target, init⟩ := d
  unfold declaratorOuter at h
  unfold declaratorEvents
  dsimp only at h ⊢
  cases hcallee : unwrapCallee? s init with
  | none =>
    simp only [hcallee, List.mem_append, event_mem_events, event_not_mem_patterns,
      event_not_mem_values, or_false] at h
    exact h.imp known_of_declareAll id
  | some callee =>
    cases hown : unwrapEvents? s place span.hi callee target with
    | none => exact .inl (known_of_declareAll (by simpa [hcallee, hown] using h))
    | some own => exact .inr (by simpa [hcallee, hown] using h)

/-- The same for statements. -/
theorem stmt_event {st : Stmt} (h : .event ev ∈ stmtOuter s st) :
    (∃ place name, ev = .known place name) ∨ ev ∈ Visit.triggered s (.stmt st) := by
  cases st with
  | function span name fn =>
    obtain ⟨decorators, params, body⟩ := fn
    have hmem : ev = .known .current name.name ∨ ev ∈ functionNameEvents s name body := by
      simpa [stmtOuter] using h
    exact hmem.imp (fun heq => ⟨_, _, heq⟩) id
  | classDef span name cls | enumeration span name values =>
    exact .inl ⟨.current, name.name, by simpa [stmtOuter] using h⟩
  | imports span locals => exact .inl (known_of_declareAll (by simpa [stmtOuter] using h))
  | resource span decls =>
    obtain ⟨d, _, h⟩ := List.mem_flatMap.mp h
    cases d
    simp [resourceOuter] at h
  | _ => simp [stmtOuter] at h

attribute [local simp] Visit.outer exprOuter propertyOuter targetOuter targetFieldOuter patternOuter
  fieldOuter memberOuter attrOuter Visit.mentioned Visit.triggered

/-- Outside of its scope a visit mentions names, declares ordinary ones, and does what a sigil gives
rise to. -/
theorem outer_event {v : Visit} (h : .event ev ∈ v.outer s) :
    (∃ m, ev = mention s m ∧ m.id ∈ v.mentioned) ∨ (∃ place name, ev = .known place name) ∨
      ev ∈ v.triggered s := by
  cases v with
  | expr chain settled e =>
    cases e with
    | name id => exact .inl ⟨_, by simpa using h, by simp⟩
    | call span link callee args => exact .inr (.inr (by simpa using h))
    | update span operand =>
      cases operand with
      | name id => exact .inl ⟨_, by simpa using h, by simp⟩
      | _ => simp at h
    | function span name fn | classDef span name cls => cases name <;> simp at h
    | _ => simp at h
  | property p | target p | targetField p =>
    cases p <;> simp at h
    exact .inl ⟨_, h, by simp⟩
  | stmt st => exact .inr (stmt_event h)
  | declarator place d => exact .inr (declarator_event h)
  | attr a =>
    cases a <;> simp at h
    exact .inr (.inr (by simpa using h))
  | pattern p | field p | member p => cases p <;> simp at h
  | func f => simp at h
  | cls c => cases c; simp at h

/-- A visit mentions names, declares ordinary ones, and does what a sigil gives rise to. -/
theorem piece_event {v : Visit} (h : .event ev ∈ v.pieces s) :
    (∃ m, ev = mention s m ∧ m.id ∈ v.mentioned) ∨ (∃ place name, ev = .known place name) ∨
      ev ∈ v.triggered s := by
  rcases List.mem_append.mp h with h | h
  · exact outer_event h
  · obtain ⟨S, hS, h⟩ := List.mem_flatMap.mp h
    obtain ⟨name, rfl⟩ := Visit.scope_event (Option.mem_toList.mp hS) h
    exact .inr (.inl ⟨_, name, rfl⟩)

end Events

end RefSugar.Walk

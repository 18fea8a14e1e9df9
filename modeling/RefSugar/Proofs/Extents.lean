import RefSugar.Proofs.Resolution

/-! Where visits lie in the text. In a tree whose spans are nested, the pieces of a visit lie inside
the spans of the visit and apart from each other; inside an expression or a pattern only another one
may reach the edge. -/
namespace RefSugar.Walk

open Syntax

variable {parts : List Span} {span : Span} {α : Type} {es : List Event} {v : Visit} {e : Expr}

def Visit.spans : Visit → List Span
  | expr _ _ e => [e.span]
  | property p => p.spans
  | pattern p | target p => p.spans
  | field f | targetField f => f.spans
  | func f => f.spans
  | cls c => c.spans
  | member m => m.spans
  | attr a => a.spans
  | stmt st => [st.extent]
  | declarator _ d => [d.span]

def Piece.spans : Piece → List Span
  | .event ev => ev.names
  | .part _ v => v.spans

def spansOf (ps : List Piece) : List Span :=
  ps.flatMap Piece.spans

/-- The parts lie inside the spans and apart from each other. -/
structure Lies (S parts : List Span) : Prop where
  apart : parts.Pairwise Span.Apart
  held : ∀ a ∈ parts, ∃ b ∈ S, b.lo ≤ a.lo ∧ a.hi ≤ b.hi

theorem Lies.of_sublist {S : List Span} (hapart : S.Pairwise Span.Apart)
    (h : parts.Sublist S) : Lies S parts :=
  ⟨hapart.sublist h, fun a ha => ⟨a, h.subset ha, Nat.le_refl _, Nat.le_refl _⟩⟩

theorem Lies.one (hapart : parts.Pairwise Span.Apart)
    (hheld : ∀ a ∈ parts, span.lo ≤ a.lo ∧ a.hi ≤ span.hi) : Lies [span] parts :=
  ⟨hapart, fun a ha => ⟨span, by simp, hheld a ha⟩⟩

theorem Lies.of_holdsAll {all : List Span} (h : span.holdsAll all = true)
    (hsub : parts.Sublist all) : Lies [span] parts := by
  obtain ⟨hheld, hapart⟩ := Span.holdsAll_iff.mp h
  exact .one (hapart.sublist hsub) fun a ha => hheld a (hsub.subset ha)

theorem Lies.of_encloses (h : parts.all span.encloses = true)
    (hapart : Span.allApart parts = true) : Lies [span] parts := by
  refine .one (Span.allApart_iff.mp hapart) fun a ha => ?_
  have := Span.encloses_iff.mp (List.all_eq_true.mp h a ha)
  omega

/-- Parts of parts that lie apart lie apart as well. -/
theorem Lies.flatMap {S : List Span} {span : α → Span} {parts : α → List Span} {l : List α}
    (h : Lies S (l.map span)) (hparts : ∀ a ∈ l, Lies [span a] (parts a)) :
    Lies S (l.flatMap parts) := by
  have hheld {a : α} (ha : a ∈ l) {b : Span} (hb : b ∈ parts a) :
      (span a).lo ≤ b.lo ∧ b.hi ≤ (span a).hi := by
    obtain ⟨c, hc, hbound⟩ := (hparts a ha).held b hb
    rwa [List.mem_singleton.mp hc] at hbound
  constructor
  · refine List.pairwise_flatMap.mpr ⟨fun a ha => (hparts a ha).apart, ?_⟩
    refine (List.pairwise_map.mp h.apart).imp_of_mem ?_
    intro a b ha hb hapart x hx y hy
    have hx := hheld ha hx
    have hy := hheld hb hy
    rcases hapart with hab | hab
    · exact .inl (by omega)
    · exact .inr (by omega)
  · intro b hb
    obtain ⟨a, ha, hb⟩ := List.mem_flatMap.mp hb
    obtain ⟨c, hc, hlo, hhi⟩ := h.held (span a) (List.mem_map_of_mem ha)
    have := hheld ha hb
    exact ⟨c, hc, by omega, by omega⟩

section Spans

variable (s : Setting)

@[simp] theorem spansOf_nil : spansOf [] = [] := rfl

@[simp] theorem spansOf_cons (p : Piece) (ps : List Piece) :
    spansOf (p :: ps) = p.spans ++ spansOf ps :=
  List.flatMap_cons

@[simp] theorem spansOf_append (ps qs : List Piece) : spansOf (ps ++ qs) = spansOf ps ++ spansOf qs :=
  List.flatMap_append

theorem spansOf_parts (visit : α → Visit) (l : List α) :
    spansOf (l.map fun a => .part s (visit a)) = l.flatMap fun a => (visit a).spans := by
  simp [spansOf, List.flatMap_map, Piece.spans]

theorem spansOf_parts_map {visit : α → Visit} {span : α → Span}
    (h : ∀ a, (visit a).spans = [span a]) (l : List α) :
    spansOf (l.map fun a => .part s (visit a)) = l.map span := by
  rw [spansOf_parts, List.map_eq_flatMap]
  simp only [h]

@[simp] theorem spansOf_values (es : List Expr) : spansOf (values s es) = es.map Expr.span :=
  spansOf_parts_map s (fun _ => rfl) es

@[simp] theorem spansOf_patterns (ps : List Pattern) :
    spansOf (patterns s ps) = ps.flatMap Pattern.spans :=
  spansOf_parts s .pattern ps

@[simp] theorem spansOf_stmtPieces (stmts : List Stmt) :
    spansOf (stmtPieces s stmts) = stmts.map Stmt.extent :=
  spansOf_parts_map s (fun _ => rfl) stmts

@[simp] theorem spansOf_itemPieces (items : List Item) :
    spansOf (itemPieces s items) = items.flatMap Item.spans := by
  rw [itemPieces, spansOf_values]
  induction items with
  | nil => rfl
  | cons i items ih => cases i <;> simpa [List.filterMap_cons, Item.expr?, Item.spans] using ih

@[simp] theorem spansOf_keyPieces (k : Key) : spansOf (keyPieces s k) = k.spans := by
  cases k <;> simp [keyPieces, Key.spans]

theorem spansOf_events (h : ∀ ev ∈ es, ev.names = []) : spansOf (events es) = [] := by
  simpa [spansOf, events, List.flatMap_map, Piece.spans] using h

theorem spansOf_declareAll (place : Place) (names : List String) :
    spansOf (events (declareAll place names)) = [] := by
  refine spansOf_events fun ev hev => ?_
  obtain ⟨name, _, rfl⟩ := List.mem_map.mp hev
  rfl

@[simp] theorem spansOf_arrowPieces (params : List Pattern) (body : List Piece) :
    spansOf (arrowPieces s params body) = params.flatMap Pattern.spans ++ spansOf body := by
  simp [arrowPieces, spansOf_declareAll]

end Spans

section Triggered

variable {s : Setting} {ev : Event}

theorem names_of_wrap {wrapFn : String} {parts : List Leaf} (h : ev ∈ wrap wrapFn parts) :
    ev.names = [] := by
  obtain ⟨leaf, _, h⟩ := List.mem_flatMap.mp h
  rcases List.mem_append.mp h with h | h
  · obtain ⟨e, _, rfl⟩ := List.mem_map.mp h
    rfl
  · rw [List.mem_singleton.mp h]
    rfl

/-- What a sigil gives rise to refers to nothing. -/
theorem spansOf_triggered (h : es ⊆ v.triggered s) :
    spansOf (events es) = [] :=
  spansOf_events fun _ hev => (triggers_of_mem (h hev)).names

end Triggered

/-- The spans of the parts of an expression, in the order in which a walk comes upon them. -/
def exprInside : Expr → List Span
  | .name id => [id.span]
  | .field _ _ object => [object.span]
  | .index _ _ object key => [object.span, key.span]
  | .call _ _ callee args => callee.span :: args.flatMap Item.spans
  | .keywordCall _ items | .array _ items => items.flatMap Item.spans
  | .wrapped _ _ inner => [inner.span]
  | .assign _ _ target value => target.spans ++ [value.span]
  | .update _ operand => [operand.span]
  | .object _ properties => properties.flatMap Property.spans
  | .function _ _ fn => fn.spans
  | .arrow _ params body => params.flatMap Pattern.spans ++ body.map Stmt.extent
  | .arrowTo _ params result => params.flatMap Pattern.spans ++ [result.span]
  | .classDef _ _ cls => cls.spans
  | .element _ attrs children => attrs.flatMap Attr.spans ++ children.map Expr.span
  | .compound _ _ parts => parts.map Expr.span

section Pieces

variable {s : Setting}

attribute [local simp] Visit.pieces Visit.outer Visit.scope? exprOuter exprScope stmtOuter stmtScope
  propertyOuter propertyScope patternOuter targetOuter fieldOuter targetFieldOuter memberOuter
  memberScope attrOuter Piece.spans Visit.spans mention Event.names spansOf_parts

/-- The parts of an expression are visited in the order of its spans. -/
theorem spansOf_exprPieces (chain : List Span) (settled : Bool) (e : Expr) :
    spansOf (Visit.pieces s (.expr chain settled e)) = exprInside e := by
  cases e with
  | call span link callee args =>
    have hevents : spansOf (events (callEvents s settled callee args)) = [] :=
      spansOf_triggered (v := .expr chain settled (.call span link callee args))
        (List.Subset.refl _)
    simp [hevents, exprInside]
  | update span operand =>
    cases operand <;> simp [exprInside]
  | function span name fn =>
    cases name <;> simp [exprInside]
  | classDef span name cls =>
    cases name <;> simp [exprInside]
  | _ =>
    simp [exprInside]

/-- The parts of a nested expression lie inside it, and apart. -/
theorem exprInside_lies (h : (Node.expr e).isNested = true) :
    Lies [e.span] (exprInside e) := by
  rw [Node.isNested, Bool.and_eq_true] at h
  obtain ⟨_, h⟩ := h
  have henclosed {span : Span} {parts : List Span}
      (h : (parts.all span.encloses && Span.allApart parts) = true) : Lies [span] parts := by
    rw [Bool.and_eq_true] at h
    exact .of_encloses h.1 h.2
  have hone {span part : Span} (h : span.lo ≤ part.lo ∧ part.hi ≤ span.hi) : Lies [span] [part] :=
    .one (List.pairwise_singleton _ _) (by simpa using h)
  cases e with
  | name id => exact hone ⟨Nat.le_refl _, Nat.le_refl _⟩
  | field span link object =>
    have := Span.opensWith_iff.mp h
    exact hone (by simp only [Expr.span_field]; omega)
  | index span link object key =>
    simp only [Node.nestedExpr, Bool.and_eq_true, Span.opensWith_iff, Span.encloses_iff,
      Span.isApart_iff] at h
    exact .one (by simpa [exprInside] using h.2) (by simp [exprInside]; omega)
  | call span link callee args =>
    simp only [Node.nestedExpr, Bool.and_eq_true, Span.opensWith_iff, Span.allApart_iff,
      List.all_eq_true, Span.encloses_iff] at h
    obtain ⟨⟨hcallee, hargs⟩, hapart⟩ := h
    refine .one hapart fun a ha => ?_
    rcases List.mem_cons.mp ha with rfl | ha
    · exact ⟨hcallee.1, Nat.le_of_lt hcallee.2⟩
    · exact ⟨Nat.le_of_lt (hargs a ha).1, Nat.le_of_lt (hargs a ha).2⟩
  | keywordCall span args => exact henclosed h
  | array span items => exact henclosed h
  | object span properties => exact henclosed h
  | function span name fn => exact henclosed h
  | classDef span name cls => exact henclosed h
  | element span attrs children => exact henclosed h
  | wrapped span kind inner =>
    refine hone ?_
    cases kind <;> simp only [Node.nestedExpr, Span.encloses_iff, Span.opensWith_iff,
      Span.holds_iff, Span.closesWith_iff] at h <;> simp only [Expr.span_wrapped] <;> omega
  | update span operand => exact hone (Span.holds_iff.mp h)
  | assign span plain target value =>
    simp only [Node.nestedExpr, Bool.and_eq_true, List.all_eq_true, Span.opensWith_iff,
      Span.closesWith_iff, Span.allApart_iff] at h
    obtain ⟨⟨⟨_, hopens⟩, hcloses⟩, hapart⟩ := h
    refine .one hapart fun a ha => ?_
    rcases List.mem_append.mp ha with ha | ha
    · exact ⟨(hopens a ha).1, Nat.le_of_lt (hopens a ha).2⟩
    · obtain rfl := List.mem_singleton.mp ha
      exact ⟨Nat.le_of_lt hcloses.1, hcloses.2⟩
  | arrow span params body =>
    simp only [Node.nestedExpr, Bool.and_eq_true, List.all_eq_true, Span.opensWith_iff,
      Span.encloses_iff, Span.allApart_iff] at h
    obtain ⟨⟨⟨_, hopens⟩, hinside⟩, hapart⟩ := h
    refine .one hapart fun a ha => ?_
    rcases List.mem_append.mp ha with ha | ha
    · exact ⟨(hopens a ha).1, Nat.le_of_lt (hopens a ha).2⟩
    · exact ⟨Nat.le_of_lt (hinside a ha).1, Nat.le_of_lt (hinside a ha).2⟩
  | arrowTo span params result =>
    simp only [Node.nestedExpr, Bool.and_eq_true, List.all_eq_true, Span.opensWith_iff,
      Span.closesWith_iff, Span.allApart_iff] at h
    obtain ⟨⟨⟨_, hopens⟩, hcloses⟩, hapart⟩ := h
    refine .one hapart fun a ha => ?_
    rcases List.mem_append.mp ha with ha | ha
    · exact ⟨(hopens a ha).1, Nat.le_of_lt (hopens a ha).2⟩
    · obtain rfl := List.mem_singleton.mp ha
      exact ⟨Nat.le_of_lt hcloses.1, hcloses.2⟩
  | compound span form parts =>
    rw [Node.nestedExpr, Bool.and_eq_true] at h
    exact .of_holdsAll h.1 (.refl _)

theorem resource_lies {d : Declarator} (h : Node.nestedDeclarator d = true) :
    Lies [d.span] (spansOf (resourceOuter s d)) := by
  obtain ⟨span, target, init⟩ := d
  rw [Node.nestedDeclarator, Bool.and_eq_true] at h
  exact .of_holdsAll h.2 (by simp [resourceOuter])

/-- So do the parts of a nested statement. -/
theorem stmtPieces_lie {st : Stmt} (h : (Node.stmt st).isNested = true) :
    Lies [st.extent] (spansOf (Visit.pieces s (.stmt st))) := by
  have h : Node.nestedStmt st = true := h
  cases st with
  | function span name fn =>
    obtain ⟨decorators, params, body⟩ := fn
    have hevents : spansOf (events (.known .current name.name :: functionNameEvents s name body)) =
        [] := by
      refine spansOf_events fun ev hev => ?_
      rcases List.mem_cons.mp hev with rfl | hev
      · rfl
      · exact (triggers_of_mem (v := .stmt (.function span name (.mk decorators params body))) hev).names
    rw [Node.nestedStmt, Bool.and_eq_true] at h
    refine .of_holdsAll h.2 (.trans ?_ (List.sublist_cons_self _ _))
    simp [hevents]
  | resource span decls =>
    rw [Node.nestedStmt, Bool.and_eq_true, List.all_eq_true] at h
    have hspans : spansOf (Visit.pieces s (.stmt (.resource span decls))) =
        decls.flatMap fun d => spansOf (resourceOuter s d) := by
      simp [spansOf, List.flatMap_assoc]
    rw [hspans]
    exact (Lies.of_holdsAll h.2 (.refl _)).flatMap fun d hd => resource_lies (h.1 d hd)
  | vars span kind decls =>
    refine .of_holdsAll h ?_
    simp only [Visit.pieces, Visit.outer, stmtOuter, Visit.scope?, stmtScope, Option.toList_none,
      List.flatMap_nil, List.append_nil]
    have hspans (place : Place) : spansOf (decls.map fun d => .part s (.declarator place d)) =
        decls.map Declarator.span := spansOf_parts_map s (fun _ => rfl) decls
    simp [hspans]
  | imports span locals =>
    have hnone : spansOf (Visit.pieces s (.stmt (.imports span locals))) = [] := by
      simp [spansOf_declareAll]
    rw [hnone]
    exact .one .nil (by simp)
  | exported span decl =>
    refine .one (by simp) ?_
    simpa using Span.holds_iff.mp h
  | expr span e =>
    refine .one (by simp) ?_
    simpa using
      (Span.holds_iff.mp h : (Stmt.expr span e).extent.lo ≤ _ ∧ _)
  | _ =>
    refine .of_holdsAll h ?_
    simp

/-- So do the target and the value of a declared variable. -/
theorem declaratorPieces_lie {place : Place} {d : Declarator}
    (h : (Node.declarator d).isNested = true) :
    Lies [d.span] (spansOf (Visit.pieces s (.declarator place d))) := by
  obtain ⟨span, target, init⟩ := d
  have h : Node.nestedDeclarator (.mk span target init) = true := h
  rw [Node.nestedDeclarator, Bool.and_eq_true] at h
  refine .of_holdsAll h.2 ?_
  have hevents (es : List Event) (hsub : es ⊆ declaratorEvents s place (.mk span target init)) :
      spansOf (events es) = [] :=
    spansOf_triggered (v := .declarator place (.mk span target init)) hsub
  have hsettled : spansOf (init.toList.map fun e => .part s (.expr [] true e)) =
      init.toList.map Expr.span := spansOf_parts_map s (fun _ => rfl) _
  simp only [Visit.pieces, Visit.outer, Visit.scope?, declaratorOuter, Option.toList_none,
    List.flatMap_nil, List.append_nil]
  cases hcallee : unwrapCallee? s init with
  | none =>
    have hvalue : spansOf (events (functionValueEvents s target init)) = [] :=
      hevents _ (by simp [declaratorEvents, hcallee])
    simp [spansOf_declareAll, hvalue]
  | some callee =>
    cases hown : unwrapEvents? s place span.hi callee target with
    | none => simp [hown, spansOf_declareAll, hsettled]
    | some own =>
      have hunwrap : spansOf (events own) = [] :=
        hevents _ (by simp [declaratorEvents, hcallee, hown])
      simp [hown, hunwrap, hsettled]

theorem pattern_lies {p : Pattern} (h : (Node.pattern p).isNested = true)
    (hapart : p.spans.Pairwise Span.Apart)
    (hparts : match p with
      | .object _ fields => parts = fields.flatMap PatternField.spans
      | .array _ items => parts = items.flatMap Pattern.spans
      | p => parts.Sublist p.spans) : Lies p.spans parts := by
  cases p with
  | object span fields | array span items =>
    simp only [Node.isNested, Bool.and_eq_true] at h
    subst hparts
    exact .of_encloses h.1.2 h.2
  | _ => exact .of_sublist hapart hparts

theorem funcPieces_spans (f : Func) : spansOf (funcScope s f).pieces = f.spans := by
  obtain ⟨decorators, params, body⟩ := f
  have hpatterns : (params.map Param.pattern).flatMap Pattern.spans =
      params.flatMap Param.patternSpans := by
    rw [List.flatMap_map]
    exact congrArg (params.flatMap ·) (funext fun p => by cases p; rfl)
  have hdecorators : (params.flatMap Param.decorators).map Expr.span =
      params.flatMap Param.decoratorSpans := by
    rw [List.map_flatMap]
    exact congrArg (params.flatMap ·) (funext fun p => by cases p; rfl)
  simp [funcScope, spansOf_declareAll, hpatterns, hdecorators, Func.spans]

theorem constructorPieces_spans (params : List Param) :
    spansOf (params.flatMap fun p => values s p.decorators ++ patterns s [p.pattern]) =
      params.flatMap Param.spans := by
  rw [spansOf, List.flatMap_assoc]
  refine congrArg (params.flatMap ·) (funext fun p => ?_)
  obtain ⟨decorators, pattern⟩ := p
  change spansOf (values s decorators ++ patterns s [pattern]) = _
  simp [Param.spans, Param.decoratorSpans, Param.patternSpans]

/-- The pieces of a visit lie inside its spans and apart from each other. -/
theorem pieces_lie (h : v.node.isNested = true)
    (hapart : v.spans.Pairwise Span.Apart) : Lies v.spans (spansOf (v.pieces s)) := by
  cases v with
  | expr chain settled e =>
    rw [spansOf_exprPieces]
    exact exprInside_lies h
  | stmt st => exact stmtPieces_lie h
  | declarator place d => exact declaratorPieces_lie h
  | pattern p =>
    refine pattern_lies h hapart ?_
    cases p <;> simp [Pattern.spans]
  | target p =>
    refine pattern_lies h hapart ?_
    cases p <;> simp [Pattern.spans]
  | property p =>
    refine .of_sublist hapart ?_
    cases p <;> simp [Property.spans]
  | field f =>
    refine .of_sublist hapart ?_
    cases f <;> simp [PatternField.spans]
  | targetField f =>
    refine .of_sublist hapart ?_
    cases f <;> simp [PatternField.spans]
  | func f =>
    refine .of_sublist hapart ?_
    simp [funcPieces_spans]
  | cls c =>
    refine .of_sublist hapart ?_
    cases c
    simp [Class.spans]
  | member m =>
    refine .of_sublist hapart ?_
    cases m <;> simp [Member.spans, spansOf_declareAll, constructorPieces_spans]
  | attr a =>
    refine .of_sublist hapart ?_
    cases a with
    | spread e => simp [Attr.spans]
    | named name braced value =>
      have hevents : spansOf (events (attrEvents s name braced value)) = [] :=
        spansOf_triggered (v := .attr (.named name braced value)) (List.Subset.refl _)
      cases name <;> simp [Attr.spans, hevents]

/-- A visit of an expression or a pattern, which have signs of their own around all else. -/
def Visit.isTight : Visit → Bool
  | expr _ _ _ | pattern _ | target _ => true
  | property _ | field _ | targetField _ | func _ | cls _ | member _ | attr _ | stmt _
  | declarator _ _ => false

theorem part_not_mem_events {s' : Setting} :
    .part s' v ∉ events es := by
  simp [events]

/-- The parts of an expression that are neither expressions nor patterns do not reach its edges. -/
theorem exprPart_enclosed {chain : List Span} {settled : Bool} (h : (Node.expr e).isNested = true)
    (hv : v ∈ partsOf (Visit.pieces s (.expr chain settled e))) (hloose : v.isTight = false) :
    ∀ a ∈ v.spans, e.span.encloses a = true := by
  rw [Node.isNested, Bool.and_eq_true] at h
  obtain ⟨_, h⟩ := h
  cases e with
  | update span operand => cases operand <;> simp at hv <;> grind [Visit.isTight]
  | function span name fn | classDef span name cls =>
    rw [Node.nestedExpr, Bool.and_eq_true, List.all_eq_true] at h
    cases name <;> simp at hv <;> exact hv ▸ h.1
  | object span properties =>
    rw [Node.nestedExpr, Bool.and_eq_true, List.all_eq_true] at h
    simp at hv
    obtain ⟨p, hp, rfl⟩ := hv
    exact fun a ha => h.1 a (List.mem_flatMap.mpr ⟨p, hp, ha⟩)
  | element span attrs children =>
    rw [Node.nestedExpr, Bool.and_eq_true, List.all_eq_true] at h
    simp at hv
    rcases hv with ⟨a, ha, rfl⟩ | ⟨e, _, rfl⟩
    · exact fun b hb => h.1 b (List.mem_append_left _ (List.mem_flatMap.mpr ⟨a, ha, hb⟩))
    · cases hloose
  | arrow span params body =>
    simp only [Node.nestedExpr, Bool.and_eq_true, List.all_eq_true] at h
    simp [arrowPieces] at hv
    rcases hv with ⟨p, _, rfl⟩ | ⟨st, hst, rfl⟩
    · cases hloose
    · exact List.forall_mem_singleton.mpr (h.1.2 _ (List.mem_map_of_mem hst))
  | _ => simp [arrowPieces, itemPieces] at hv <;> grind [Visit.isTight]

/-- What is loose in a pattern stands between its signs. -/
theorem patternPart_enclosed {p : Pattern} (h : (Node.pattern p).isNested = true)
    (hv : v ∈ partsOf (Visit.pieces s (.pattern p)) ∨ v ∈ partsOf (Visit.pieces s (.target p)))
    (hloose : v.isTight = false) : ∀ a ∈ v.spans, ∃ b ∈ p.spans, b.lo < a.lo ∧ a.hi < b.hi := by
  cases p with
  | object span fields =>
    simp only [Node.isNested, Bool.and_eq_true, List.all_eq_true, Span.encloses_iff] at h
    obtain ⟨f, hf, hspans⟩ : ∃ f ∈ fields, v.spans = f.spans := by
      simp at hv
      rcases hv with ⟨f, hf, rfl⟩ | ⟨f, hf, rfl⟩ <;> exact ⟨f, hf, rfl⟩
    intro a ha
    exact ⟨span, by simp [Pattern.spans], h.1.2 a (List.mem_flatMap.mpr ⟨f, hf, hspans ▸ ha⟩)⟩
  | _ => simp at hv <;> grind [Visit.isTight]

/-- Inside an expression or a pattern, only another one may reach the edge. -/
theorem part_enclosed (h : v.node.isNested = true) (htight : v.isTight = true)
    {s' : Setting} {v' : Visit} (hv : .part s' v' ∈ v.pieces s) (hloose : v'.isTight = false) :
    ∀ a ∈ v'.spans, ∃ b ∈ v.spans, b.lo < a.lo ∧ a.hi < b.hi := by
  cases v with
  | expr chain settled e =>
    intro a ha
    exact ⟨e.span, by simp, Span.encloses_iff.mp (exprPart_enclosed h (mem_partsOf.mpr ⟨s', hv⟩) hloose a ha)⟩
  | pattern p => exact patternPart_enclosed h (.inl (mem_partsOf.mpr ⟨s', hv⟩)) hloose
  | target p => exact patternPart_enclosed h (.inr (mem_partsOf.mpr ⟨s', hv⟩)) hloose
  | _ => simp [Visit.isTight] at htight

/-- An expression that ends with a sign of its own. -/
def isClosed : Expr → Bool
  | .field _ _ _ | .index _ _ _ _ | .call _ _ _ _ | .keywordCall _ _
  | .wrapped _ .instantiation _ => true
  | _ => false

/-- Nothing reaches up to the last sign of a closed expression. -/
theorem exprInside_ends (h : (Node.expr e).isNested = true) (hclosed : isClosed e = true) :
    ∀ a ∈ exprInside e, a.hi < e.span.hi := by
  rw [Node.isNested, Bool.and_eq_true] at h
  obtain ⟨_, h⟩ := h
  cases e with
  | field span link object => simpa [exprInside] using (Span.opensWith_iff.mp h).2
  | index span link object key =>
    simp only [Node.nestedExpr, Bool.and_eq_true, Span.opensWith_iff, Span.encloses_iff] at h
    simpa [exprInside] using ⟨h.1.1.2, h.1.2.2⟩
  | call span link callee args =>
    simp only [Node.nestedExpr, Bool.and_eq_true, List.all_eq_true, Span.opensWith_iff,
      Span.encloses_iff] at h
    exact List.forall_mem_cons.mpr ⟨h.1.1.2, fun a ha => (h.1.2 a ha).2⟩
  | keywordCall span args =>
    simp only [Node.nestedExpr, Bool.and_eq_true, List.all_eq_true, Span.encloses_iff] at h
    exact fun a ha => (h.1 a ha).2
  | wrapped span kind inner =>
    cases kind with
    | instantiation => simpa [exprInside] using (Span.opensWith_iff.mp h).2
    | _ => simp [isClosed] at hclosed
  | _ => simp [isClosed] at hclosed

end Pieces

end RefSugar.Walk

import RefSugar.Proofs.ExprLayout
import RefSugar.Proofs.Outline

/-! A declaration that takes away a sigil which the first call of its callee takes away as well: the
walk takes the same byte away twice. -/
namespace RefSugar.Walk

open Syntax

def TakesApart (E : List Event) : Prop :=
  ((rangesOf E).filter Span.isFilled).Pairwise Span.Apart

theorem rangesOf_sublist {E E' : List Event} (h : E'.Sublist E) :
    (rangesOf E').Sublist (rangesOf E) := by
  induction h with
  | slnil => exact .slnil
  | cons event _ ih => exact ih.trans (List.sublist_append_right _ _)
  | cons_cons event _ ih => exact (List.Sublist.refl _).append ih

theorem TakesApart.of_sublist {E E' : List Event} (h : TakesApart E) (hsub : E'.Sublist E) :
    TakesApart E' :=
  h.sublist ((rangesOf_sublist hsub).filter Span.isFilled)

end RefSugar.Walk

namespace RefSugar.Syntax.Node

/-- The nodes at which a walk stops in the place of a node. -/
def spread : Node → List Node
  | .item i => (Node.item i).children
  | .key k => (Node.key k).children
  | .param p => (Node.param p).children
  | n => [n]

def isLone : Node → Bool
  | .expr (.name _) | .pattern (.name _) => true
  | _ => false

theorem param_children (p : Param) :
    (Node.param p).children = p.decorators.map .expr ++ [.pattern p.pattern] := by
  cases p
  rfl

end RefSugar.Syntax.Node

namespace RefSugar.Walk

open Syntax

section Reached

variable {s : Setting}

/-- A pattern that is not unpacked is a name or declares ordinary names. -/
theorem name_or_ordinary {target : Pattern} {init : Option Expr} {callee : Expr}
    (hkept : isUnpacked s target init = false) (hcallee : unwrapCallee? s init = some callee)
    (place : Place) (stop : Nat) :
    (∃ id, target = .name id) ∨ unwrapEvents? s place stop callee target = none := by
  unfold unwrapEvents?
  split
  · rename_i id
    exact .inl ⟨id, rfl⟩
  · rw [isUnpacked, hcallee, Option.isSome_some, Bool.true_and, Option.isSome_eq_false_iff,
      Option.isNone_iff_eq_none] at hkept
    exact .inr (by rw [hkept, Option.map_none])

/-- What is walked of a declarator is visited, but for a lone name. -/
theorem visited_of_declarator {place : Place} {d : Declarator} {c : Node}
    (hc : c ∈ walked s (.declarator d)) :
    c ∈ (partsOf (declaratorOuter s place d)).map Visit.node ∨ c.isLone = true := by
  obtain ⟨span, target, init⟩ := d
  rcases List.mem_append.mp hc with hc | hc
  · -- only a pattern that is not unpacked is walked
    split at hc
    · cases hc
    · rename_i hkept
      obtain rfl := List.mem_singleton.mp hc
      cases hcallee : unwrapCallee? s init with
      | none => exact .inl (by simp [declaratorOuter, hcallee])
      | some callee =>
        rcases name_or_ordinary (Bool.not_eq_true _ ▸ hkept) hcallee place span.hi with
          ⟨id, rfl⟩ | hown
        · exact .inr rfl
        · exact .inl (by simp [declaratorOuter, hcallee, hown])
  · obtain ⟨e, he, rfl⟩ := List.mem_map.mp hc
    obtain rfl := Option.mem_toList.mp he
    left
    unfold declaratorOuter
    dsimp only
    split <;> simp

attribute [local simp] Visit.pieces Visit.outer Visit.scope? itemPieces Node.spread walked

theorem partsOf_key (key : Key) :
    (partsOf (keyPieces s key)).map Visit.node = (Node.key key).children := by
  cases key <;> simp [keyPieces]

attribute [local simp] partsOf_key

/-- Where a walk goes on from a visit, each part that it comes upon is visited, a name on its own
apart. -/
theorem visited_of_walked {v : Visit} {c c' : Node} (hc : c ∈ walked s v.node)
    (hc' : c' ∈ c.spread) :
    c' ∈ (partsOf (v.pieces s)).map Visit.node ∨ c'.isLone = true := by
  cases v with
  | expr chain settled e =>
    cases e with
    | update span operand =>
      cases operand <;> simp [exprOuter, exprScope] at hc ⊢ <;> grind [Node.spread, Node.isLone]
    | function span name fn | classDef span name cls =>
      cases name <;> simp [exprOuter, exprScope] at hc ⊢ <;> grind [Node.spread]
    | _ => simp [exprOuter, exprScope, arrowPieces] at hc ⊢ <;> grind [Node.spread, Node.children]
  | property p =>
    cases p <;> simp [propertyOuter, propertyScope, arrowPieces] at hc ⊢ <;>
      grind [Node.spread, Node.children]
  | pattern p => cases p <;> simp [patternOuter] at hc ⊢ <;> grind [Node.spread]
  | target p => cases p <;> simp [targetOuter] at hc ⊢ <;> grind [Node.spread]
  | field f => cases f <;> simp [fieldOuter] at hc ⊢ <;> grind [Node.spread, Node.children]
  | targetField f =>
    cases f <;> simp [targetFieldOuter] at hc ⊢ <;> grind [Node.spread, Node.children]
  | func f =>
    cases f
    simp [funcScope] at hc ⊢
    grind [Node.spread, Node.param_children]
  | cls c =>
    cases c
    simp at hc ⊢
    grind [Node.spread]
  | member m =>
    cases m <;> simp [memberOuter, memberScope, List.map_flatMap] at hc ⊢ <;>
      grind [Node.spread, Node.children, Node.param_children]
  | attr a => cases a <;> simp [attrOuter] at hc ⊢ <;> grind [Node.spread]
  | stmt st =>
    cases st with
    | vars span kind decls =>
      simp [stmtOuter, stmtScope] at hc ⊢
      grind [Node.spread]
    | resource span decls =>
      obtain ⟨⟨_, target, init⟩, hd, hc⟩ := List.mem_flatMap.mp hc
      simp only [Visit.pieces, Visit.outer, stmtOuter, partsOf_append, partsOf_flatMap,
        List.map_append, List.map_flatMap, List.mem_append, List.mem_flatMap]
      refine .inl (.inl ⟨_, hd, ?_⟩)
      simp [resourceOuter] at hc ⊢
      grind [Node.spread]
    | function span name fn =>
      cases fn
      simp [stmtOuter, stmtScope] at hc ⊢
      grind [Node.spread]
    | _ => simp [stmtOuter, stmtScope, arrowPieces] at hc ⊢ <;> grind [Node.spread]
  | declarator place d =>
    have hself : c' = c := by
      cases d
      simp at hc
      grind [Node.spread]
    simpa [hself] using visited_of_declarator hc

/-- What a walk makes of a part is among what it makes of the whole. -/
theorem trace_sublist {s' : Setting} {v v' : Visit} (h : .part s' v' ∈ v.pieces s) :
    (v'.trace s').Sublist (v.trace s) := by
  have hmem {ps : List Piece} (h : .part s' v' ∈ ps) : (v'.trace s').Sublist (expand ps) := by
    obtain ⟨front, back, rfl⟩ := List.append_of_mem h
    rw [expand_append]
    exact (List.sublist_append_left _ _).trans (List.sublist_append_right _ _)
  rw [v.trace_eq s]
  rcases List.mem_append.mp h with h | h
  · exact (hmem h).trans (List.sublist_append_left _ _)
  · obtain ⟨S, hS, h⟩ := List.mem_flatMap.mp h
    rw [show v.scope? s = some S from Option.mem_toList.mp hS, Option.toList_some,
      List.flatMap_singleton]
    have hframe : (expand S.pieces).Sublist S.trace :=
      (List.sublist_append_left _ _).trans (List.sublist_cons_self _ _)
    exact ((hmem h).trans hframe).trans (List.sublist_append_right _ _)

/-- What a walk makes of the node is among the events, wherever the node stands. -/
def TracedIn (s : Setting) (E : List Event) (n : Node) : Prop :=
  ∀ n' ∈ n.spread, n'.isLone = true ∨
    ∃ (b : Bool) (v : Visit), v.node = n' ∧ (v.trace { s with isExempt := b }).Sublist E

theorem TracedIn.stmt (st : Stmt) : TracedIn s (traceStmt s st) (.stmt st) := by
  intro n' hn'
  obtain rfl := List.mem_singleton.mp hn'
  exact .inr ⟨s.isExempt, .stmt st, rfl, .refl _⟩

/-- What a walk makes of a part is among what it makes of the node. -/
theorem TracedIn.part {E : List Event} {n c : Node} (h : TracedIn s E n) (hc : c ∈ walked s n) :
    TracedIn s E c := by
  by_cases hself : n.spread = [n]
  · rcases h n (hself ▸ List.mem_singleton_self n) with hlone | ⟨b, v, rfl, hsub⟩
    · unfold Node.isLone at hlone
      split at hlone <;> simp at hlone hc
    · intro c' hc'
      have hc : c ∈ walked { s with isExempt := b } v.node := by
        revert hc
        unfold walked isUnpacked
        exact id
      refine (visited_of_walked hc hc').symm.imp id fun hvisit => ?_
      obtain ⟨v', hv', rfl⟩ := List.mem_map.mp hvisit
      obtain ⟨s', hpart⟩ := mem_partsOf.mp hv'
      obtain ⟨b', rfl⟩ := (v.pieces_inside _ s' v' hpart).1.eq
      exact ⟨b', v', rfl, (trace_sublist hpart).trans hsub⟩
  · -- an item, a key or a parameter is visited through its parts
    have hspread : n.spread = n.children ∧ walked s n = n.children ∧ c.spread = [c] := by
      cases n with
      | item i => cases i <;> simp at hc ⊢ <;> grind [Node.spread]
      | key k => cases k <;> simp at hc ⊢ <;> grind [Node.spread]
      | param p =>
        have hc : c ∈ p.decorators.map .expr ++ [.pattern p.pattern] := by
          rwa [← Node.param_children]
        refine ⟨rfl, rfl, ?_⟩
        grind [Node.spread]
      | _ => exact absurd rfl hself
    intro c' hc'
    rw [hspread.2.2, List.mem_singleton] at hc'
    subst hc'
    exact h c' (by rw [hspread.1, ← hspread.2.1]; exact hc)

/-- What a walk makes of a statement holds what it makes of the declarations it comes upon. -/
theorem traced_reached {st : Stmt} {d : Declarator}
    (hd : Node.Reaches (walked s) (.stmt st) (.declarator d)) :
    ∃ b place, (traceDeclarators { s with isExempt := b } place [d]).Sublist (traceStmt s st) := by
  have htraced {E : List Event} {n m : Node} (h : TracedIn s E n)
      (hm : Node.Reaches (walked s) n m) : TracedIn s E m := by
    induction hm with
    | refl => exact h
    | step hc _ ih => exact ih (h.part hc)
  rcases htraced (.stmt st) hd _ (List.mem_singleton_self _) with hlone | ⟨b, v, hv, hsub⟩
  · cases hlone
  · cases v with
    | declarator place d' =>
      obtain rfl : d' = d := by simpa using hv
      exact ⟨b, place, hsub⟩
    | _ => cases hv

end Reached

section Declared

variable {s : Setting}

/-- A call of a name that takes away what the name starts with. -/
theorem call_range {id : Ident} {args : List Item} (htakes : takesFront s id = true) :
    ∃ r ∈ rangesOf (callEvents s false (.name id) args), r.lo = id.span.lo ∧ r.lo < r.hi := by
  unfold callEvents
  dsimp only
  simp only [takesFront, Bool.or_eq_true] at htakes
  split
  · rename_i htext
    have heq : (s.text id.span).toList = ['$', '$'] := by
      simp only [Sigil.isExplicitWrap, beq_iff_eq, Expr.span_name] at htext
      simp [htext]
    have hfilled := (@boundaries_of_front s id.span (by simp [heq])).2.2
    exact ⟨id.span, by simp [Event.ranges], rfl, hfilled⟩
  · rename_i hexplicit
    have hunwrap := htakes.resolve_left hexplicit
    exact ⟨⟨id.span.lo, id.span.lo + 1⟩,
      by simp [hunwrap, isName, stripLeading, Event.ranges], rfl, Nat.lt_succ_self _⟩

/-- The call at the head of an expression is walked as part of the expression. -/
theorem head_sublist (e : Expr) {id : Ident} (hhead : headCallee? e = some id)
    (chain : List Span) : ∃ args chain',
      (callEvents s false (.name id) args ++ [mention s { id, chain := chain' }]).Sublist
        (traceExpr s chain false e) := by
  have widen : ∀ {E E' : List Event},
      (∃ args chain', (callEvents s false (.name id) args ++
        [mention s { id, chain := chain' }]).Sublist E) → E.Sublist E' →
      ∃ args chain', (callEvents s false (.name id) args ++
        [mention s { id, chain := chain' }]).Sublist E' := by
    rintro E E' ⟨args, chain', h⟩ hsub
    exact ⟨args, chain', h.trans hsub⟩
  match e with
  | .call span link callee args =>
    rw [traceExpr]
    by_cases hname : ∃ other, callee = .name other
    · obtain ⟨other, rfl⟩ := hname
      simp only [headCallee?, Option.some.injEq] at hhead
      subst hhead
      rw [traceExpr]
      exact ⟨args, chain ++ [span], List.sublist_append_left _ _⟩
    · have hcallee : headCallee? callee = some id := by
        rw [headCallee?] at hhead
        · exact hhead
        · simpa using hname
      refine widen (head_sublist callee hcallee (chain ++ [span])) ?_
      exact (List.sublist_append_right _ _).trans (List.sublist_append_left _ _)
  | .field span link object =>
    rw [headCallee?] at hhead
    rw [traceExpr]
    exact head_sublist object hhead _
  | .index span link object key =>
    rw [headCallee?] at hhead
    rw [traceExpr]
    exact widen (head_sublist object hhead _) (List.sublist_append_left _ _)
  | .wrapped span kind inner =>
    rw [headCallee?] at hhead
    rw [traceExpr, Bool.false_and]
    exact head_sublist inner hhead _
  | .update span operand =>
    rw [headCallee?] at hhead
    by_cases hname : ∃ other, operand = .name other
    · obtain ⟨other, rfl⟩ := hname
      simp [headCallee?] at hhead
    · rw [traceExpr]
      · exact head_sublist operand hhead _
      · simpa using hname
  | .assign span plain target value =>
    cases target with
    | expr target =>
      rw [headCallee?] at hhead
      rw [traceExpr, traceTarget]
      exact widen (head_sublist target hhead _) (List.sublist_append_left _ _)
    | _ => simp [headCallee?] at hhead
  | .compound span form [] => simp [headCallee?, headCalleeOfFirst?] at hhead
  | .compound span form (first :: rest) =>
    rw [headCallee?, headCalleeOfFirst?] at hhead
    rw [traceExpr, traceExprs]
    exact widen (head_sublist first hhead _) (List.sublist_append_left _ _)
  | .name _ | .keywordCall _ _ | .array _ _ | .object _ _ | .function _ _ _ | .arrow _ _ _
  | .arrowTo _ _ _ | .classDef _ _ _ | .element _ _ _ => simp [headCallee?] at hhead
termination_by sizeOf e

/-- The callee of a declared value is walked as part of the value. -/
theorem declared_sublist (e : Expr) {callee : Expr} (h : declaredCallee? e = some callee)
    (chain : List Span) (settled : Bool) :
    ∃ chain', (traceExpr s chain' false callee).Sublist (traceExpr s chain settled e) := by
  match e with
  | .call span .plain other args =>
    simp only [declaredCallee?, Option.some.injEq] at h
    subst h
    rw [traceExpr]
    exact ⟨_, (List.sublist_append_right _ _).trans (List.sublist_append_left _ _)⟩
  | .wrapped span .parens inner | .wrapped span .nonNull inner =>
    rw [declaredCallee?] at h
    rw [traceExpr]
    exact declared_sublist inner h _ _
  | .call _ .chained _ _ | .call _ .optional _ _ | .wrapped _ .asType _ | .wrapped _ .satisfies _
  | .wrapped _ .asConst _ | .wrapped _ .assertion _ | .wrapped _ .instantiation _ | .name _
  | .field _ _ _ | .index _ _ _ _ | .keywordCall _ _ | .assign _ _ _ _ | .update _ _ | .array _ _
  | .object _ _ | .function _ _ _ | .arrow _ _ _ | .arrowTo _ _ _ | .classDef _ _ _
  | .element _ _ _ | .compound _ _ _ => simp [declaredCallee?] at h
termination_by sizeOf e

theorem unwrapEvents?_of_takesSigil {target : Pattern} (h : takesSigil s target = true)
    (place : Place) (stop : Nat) (callee : Expr) :
    ∃ event, unwrapEvents? s place stop callee target = some [event, stripLeading callee.span] := by
  cases target with
  | name id => exact ⟨_, rfl⟩
  | _ =>
    rw [takesSigil] at h
    · obtain ⟨plan, hplan⟩ := Option.isSome_iff_exists.mp h
      exact ⟨.unpack place plan stop, by rw [unwrapEvents?, hplan, Option.map_some]; simp⟩
    · simp

/-- The sigil in front of the callee is taken away by the declaration, and by the call. -/
theorem not_takesApart_of_strippedTwice {d : Declarator} (h : StrippedTwice s d) (place : Place) :
    ¬ TakesApart (traceDeclarators s place [d]) := by
  intro hapart
  obtain ⟨span, target, init⟩ := d
  obtain ⟨hsigil, callee, hcallee, id, hhead, hlo, htakes⟩ := h
  obtain ⟨event, hown⟩ := unwrapEvents?_of_takesSigil hsigil place span.hi callee
  obtain ⟨e, rfl, hdeclared⟩ : ∃ e, init = some e ∧ declaredCallee? e = some callee :=
    Option.bind_eq_some_iff.mp (Option.filter_eq_some_iff.mp hcallee).1
  obtain ⟨chain, hsub⟩ := @declared_sublist s e callee hdeclared [] true
  obtain ⟨args, _, hcall⟩ := @head_sublist s callee id hhead chain
  obtain ⟨r, hr, hrlo, hfilled⟩ := @call_range s id args htakes
  have hr : r ∈ rangesOf (traceExpr s chain false callee) :=
    (rangesOf_sublist ((List.sublist_append_left _ _).trans hcall)).subset hr
  have hboth : (stripLeading callee.span :: traceExpr s chain false callee).Sublist
      (traceDeclarators s place [.mk span target (some e)]) := by
    simp only [traceDeclarators, List.append_nil, hcallee, hown, Option.getD_some, traceSettled]
    exact .cons event (hsub.cons_cons _)
  have hranges := hapart.of_sublist hboth
  simp only [TakesApart, rangesOf_cons, stripLeading, Event.ranges, Edit.ranges,
    List.singleton_append] at hranges
  rw [List.filter_cons_of_pos (by simp [Span.isFilled]), List.pairwise_cons] at hranges
  have := hranges.1 r (List.mem_filter.mpr ⟨hr, Span.isFilled_iff.mpr hfilled⟩)
  simp only [Span.Apart] at this
  omega

/-- A walk that comes upon such a declaration takes away something twice. -/
theorem not_takesApart_of_reached {st : Stmt} {d : Declarator}
    (hd : Node.Reaches (walked s) (.stmt st) (.declarator d)) (h : StrippedTwice s d) :
    ¬ TakesApart (traceStmt s st) := by
  intro hapart
  obtain ⟨b, place, hsub⟩ := traced_reached hd
  exact @not_takesApart_of_strippedTwice { s with isExempt := b } d h place
    (hapart.of_sublist hsub)

/-- A reference stands where such a declaration takes something away twice. -/
theorem mention_of_reached {st : Stmt} {span : Span} {target : Pattern} {init : Option Expr}
    {callee : Expr} (hd : Node.Reaches (walked s) (.stmt st) (.declarator (.mk span target init)))
    (h : StrippedTwice s (.mk span target init)) (hcallee : unwrapCallee? s init = some callee) :
    ∃ m, .mention m ∈ traceStmt s st ∧ m.id.span.lo = callee.span.lo := by
  obtain ⟨_, callee', hcallee', id, hhead, hlo, _⟩ := h
  obtain rfl : callee' = callee := Option.some.inj (hcallee'.symm.trans hcallee)
  obtain ⟨b, place, hsub⟩ := traced_reached hd
  obtain ⟨e, rfl, hdeclared⟩ : ∃ e, init = some e ∧ declaredCallee? e = some callee' :=
    Option.bind_eq_some_iff.mp (Option.filter_eq_some_iff.mp hcallee).1
  obtain ⟨chain, hvalue⟩ := @declared_sublist { s with isExempt := b } e callee' hdeclared [] true
  obtain ⟨args, chain', hcall⟩ := @head_sublist { s with isExempt := b } callee' id hhead chain
  have hinit : (traceExpr { s with isExempt := b } [] true e).Sublist
      (traceDeclarators { s with isExempt := b } place [.mk span target (some e)]) := by
    have hcallee : unwrapCallee? { s with isExempt := b } (some e) = some callee' := hcallee
    simp only [traceDeclarators, List.append_nil, hcallee, traceSettled]
    exact List.sublist_append_right _ _
  have hmem : mention { s with isExempt := b } { id, chain := chain' } ∈ traceStmt s st :=
    (((hcall.trans hvalue).trans hinit).trans hsub).subset (by simp)
  exact ⟨_, hmem, hlo⟩

end Declared

end RefSugar.Walk

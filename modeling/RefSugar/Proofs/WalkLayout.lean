import RefSugar.Proofs.ExprLayout

/-! The events of every walk are laid over the spans of its tree: by induction on the tree, one case
for each kind of node. -/
namespace RefSugar.Walk

open Syntax

variable {ps : List Param} {callee e : Expr} {target : Pattern} {body : Stmt}

def funcLeaves : Func → List Leaf
  | .mk _ _ body => returnLeaves body

/-- How the events of a node lie. A node without a span of its own needs to know that its parts are
apart. -/
def NodeLaid (g : Ground) (s : Setting) : Node → Prop
  | .expr e => ExprLaid g s e
  | .item i => Laid g i.spans (traceItems s [i]) (itemLeaves [i])
  | .property p => p.spans.Pairwise Span.Apart →
    Laid g p.spans (traceProperties s [p]) (propertyLeaves [p])
  | .key k => Laid g k.spans (traceKey s k) []
  | .pattern p => p.spans.Pairwise Span.Apart → PatternLaid g s p
  | .field f => f.spans.Pairwise Span.Apart →
    Laid g f.spans (traceFields s [f]) [] ∧
      Laid g f.spans (traceTargetFields s [f]) []
  | .param p =>
    (p.patternSpans.Pairwise Span.Apart →
      Laid g p.patternSpans (traceParamPatterns s [p]) []) ∧
    (p.decoratorSpans.Pairwise Span.Apart →
      Laid g p.decoratorSpans (traceParamDecorators s [p]) [])
  | .func f => f.spans.Pairwise Span.Apart → Laid g f.spans (traceFunc s f) (funcLeaves f)
  | .cls c => c.spans.Pairwise Span.Apart → Laid g c.spans (traceClass s c) []
  | .member m => m.spans.Pairwise Span.Apart → Laid g m.spans (traceMembers s [m]) []
  | .attr a => a.spans.Pairwise Span.Apart → Laid g a.spans (traceAttrs s [a]) []
  | .stmt st => Laid g [st.extent] (traceStmt s st) (returnLeaves [st])
  | .declarator d => ∀ place, Laid g [d.span] (traceDeclarators s place [d]) []

def Walkable (g : Ground) (s : Setting) (n : Node) : Prop :=
  n.isNested = true ∧ CutsAt g.ok n ∧ (g.careful → ReadsExplicit s n ∧ StripsOnce g.twice s n)

section Lists

variable {g : Ground} {s : Setting}

theorem pairwise_of_mem {α : Type} {spans : α → List Span} {l : List α} {a : α}
    (h : (l.flatMap spans).Pairwise Span.Apart) (ha : a ∈ l) : (spans a).Pairwise Span.Apart :=
  (List.pairwise_flatMap.mp h).1 a ha

theorem laid_items {items : List Item} (h : ∀ i ∈ items, NodeLaid g s (.item i))
    (hapart : (items.flatMap Item.spans).Pairwise Span.Apart) :
    Laid g (items.flatMap Item.spans) (traceItems s items) (itemLeaves items) := by
  rw [traceItems_eq, itemLeaves_eq]
  exact Laid.flatMap h hapart

theorem laid_properties {ps : List Property} (h : ∀ p ∈ ps, NodeLaid g s (.property p))
    (hapart : (ps.flatMap Property.spans).Pairwise Span.Apart) :
    Laid g (ps.flatMap Property.spans) (traceProperties s ps) (propertyLeaves ps) := by
  rw [traceProperties_eq, propertyLeaves_eq]
  exact Laid.flatMap (fun p hp => h p hp (pairwise_of_mem hapart hp)) hapart

theorem laid_patterns {ps : List Pattern} (h : ∀ p ∈ ps, NodeLaid g s (.pattern p))
    (hapart : (ps.flatMap Pattern.spans).Pairwise Span.Apart) :
    Laid g (ps.flatMap Pattern.spans) (tracePatterns s ps) [] := by
  rw [tracePatterns_eq]
  exact (Laid.flatMap (fun p hp => (h p hp (pairwise_of_mem hapart hp)).declared) hapart).forget

theorem laid_targets {ps : List Pattern} (h : ∀ p ∈ ps, NodeLaid g s (.pattern p))
    (hapart : (ps.flatMap Pattern.spans).Pairwise Span.Apart) :
    Laid g (ps.flatMap Pattern.spans) (traceTargets s ps) [] := by
  rw [traceTargets_eq]
  exact (Laid.flatMap (fun p hp => (h p hp (pairwise_of_mem hapart hp)).assigned) hapart).forget

theorem laid_fields {fields : List PatternField}
    (h : ∀ f ∈ fields, NodeLaid g s (.field f))
    (hapart : (fields.flatMap PatternField.spans).Pairwise Span.Apart) :
    Laid g (fields.flatMap PatternField.spans) (traceFields s fields) [] ∧
      Laid g (fields.flatMap PatternField.spans) (traceTargetFields s fields) [] := by
  rw [traceFields_eq, traceTargetFields_eq]
  exact ⟨(Laid.flatMap (fun f hf => (h f hf (pairwise_of_mem hapart hf)).1) hapart).forget,
    (Laid.flatMap (fun f hf => (h f hf (pairwise_of_mem hapart hf)).2) hapart).forget⟩

theorem laid_stmts {stmts : List Stmt} (h : ∀ st ∈ stmts, NodeLaid g s (.stmt st))
    (hapart : (stmts.map Stmt.extent).Pairwise Span.Apart) :
    Laid g (stmts.map Stmt.extent) (traceStmts s stmts) (returnLeaves stmts) := by
  rw [traceStmts_eq, returnLeaves_eq]
  rw [List.map_eq_flatMap] at hapart ⊢
  exact Laid.flatMap h hapart

theorem laid_paramPatterns (h : ∀ p ∈ ps, NodeLaid g s (.param p))
    (hapart : (ps.flatMap Param.patternSpans).Pairwise Span.Apart) :
    Laid g (ps.flatMap Param.patternSpans) (traceParamPatterns s ps) [] := by
  rw [traceParamPatterns_eq]
  exact (Laid.flatMap (fun p hp => (h p hp).1 (pairwise_of_mem hapart hp)) hapart).forget

theorem laid_paramDecorators (h : ∀ p ∈ ps, NodeLaid g s (.param p))
    (hapart : (ps.flatMap Param.decoratorSpans).Pairwise Span.Apart) :
    Laid g (ps.flatMap Param.decoratorSpans) (traceParamDecorators s ps) [] := by
  rw [traceParamDecorators_eq]
  exact (Laid.flatMap (fun p hp => (h p hp).2 (pairwise_of_mem hapart hp)) hapart).forget

theorem laid_params (h : ∀ p ∈ ps, NodeLaid g s (.param p))
    (hapart : (ps.flatMap Param.spans).Pairwise Span.Apart) :
    Laid g (ps.flatMap Param.spans) (traceParams s ps) [] := by
  rw [traceParams_eq]
  have hone : ∀ p ∈ ps, Laid g p.spans (traceParams s [p]) [] := by
    intro p hp
    have hspans : p.spans.Pairwise Span.Apart := pairwise_of_mem hapart hp
    rw [Param.spans, List.pairwise_append] at hspans
    have heq : traceParams s [p] = traceParamDecorators s [p] ++ traceParamPatterns s [p] := by
      cases p
      simp [traceParams, traceParamDecorators, traceParamPatterns]
    rw [heq]
    exact ((h p hp).2 hspans.1).append ((h p hp).1 hspans.2.1) hspans.2.2
  exact (Laid.flatMap hone hapart).forget

theorem laid_attrs {attrs : List Attr} (h : ∀ a ∈ attrs, NodeLaid g s (.attr a))
    (hapart : (attrs.flatMap Attr.spans).Pairwise Span.Apart) :
    Laid g (attrs.flatMap Attr.spans) (traceAttrs s attrs) [] := by
  rw [traceAttrs_eq]
  exact (Laid.flatMap (fun a ha => h a ha (pairwise_of_mem hapart ha)) hapart).forget

theorem laid_members {members : List Member} (h : ∀ m ∈ members, NodeLaid g s (.member m))
    (hapart : (members.flatMap Member.spans).Pairwise Span.Apart) :
    Laid g (members.flatMap Member.spans) (traceMembers s members) [] := by
  rw [traceMembers_eq]
  exact (Laid.flatMap (fun m hm => h m hm (pairwise_of_mem hapart hm)) hapart).forget

theorem laid_option {value : Option Expr}
    (h : ∀ e ∈ value.toList.map Node.expr, NodeLaid g s e) :
    Laid g (value.toList.map Expr.span) (traceOption s value) [] := by
  cases value with
  | none => rw [traceOption]; exact .nil
  | some e =>
    rw [traceOption]
    exact ((h (.expr e) (by simp)).laid [] false).forget

end Lists

section Nodes

variable {g : Ground} {s : Setting} {span : Span}
  (hok : ∀ p, Text.isBoundary p s.source = true → g.ok p)

attribute [local simp] walked Node.ofExpr Node.ofProperty Node.ofPattern Node.ofField Node.ofMember
  Node.ofStmt

theorem nestedExpr_of_isNested (h : (Node.expr e).isNested = true) :
    e.span.lo ≤ e.span.hi ∧ Node.nestedExpr e = true := by
  rwa [Node.isNested, Bool.and_eq_true, decide_eq_true_eq] at h

theorem enclosed_iff {S : List Span} : (S.all span.encloses && Span.allApart S) = true ↔
    (∀ a ∈ S, span.lo < a.lo ∧ a.hi < span.hi) ∧ S.Pairwise Span.Apart := by
  simp only [Bool.and_eq_true, List.all_eq_true, Span.encloses_iff, Span.allApart_iff]

/-! Expressions in brackets of their own. -/

theorem laid_keywordCall {args : List Item} (h : (Node.expr (.keywordCall span args)).isNested = true)
    (hcuts : g.ok span.lo ∧ g.ok span.hi) (hargs : ∀ i ∈ args, NodeLaid g s (.item i)) :
    ExprLaid g s (.keywordCall span args) := by
  obtain ⟨hle, h⟩ := nestedExpr_of_isNested h
  obtain ⟨hinside, hapart⟩ := enclosed_iff.mp h
  refine .of_enclosed (L := itemLeaves args) rfl (fun _ _ => ?_) hinside fun _ _ hlaid => ?_
  · rw [traceExpr]
    exact laid_items hargs hapart
  · rw [leaves]
    exact hlaid.whole hle hcuts.1 hcuts.2

theorem laid_array {items : List Item} (h : (Node.expr (.array span items)).isNested = true)
    (hitems : ∀ i ∈ items, NodeLaid g s (.item i)) : ExprLaid g s (.array span items) := by
  obtain ⟨hinside, hapart⟩ := enclosed_iff.mp (nestedExpr_of_isNested h).2
  refine .of_enclosed (L := itemLeaves items) rfl (fun _ _ => ?_) hinside fun _ _ hlaid => ?_
  · rw [traceExpr]
    exact laid_items hitems hapart
  · rw [leaves]
    exact hlaid

theorem laid_object {properties : List Property}
    (h : (Node.expr (.object span properties)).isNested = true)
    (hproperties : ∀ p ∈ properties, NodeLaid g s (.property p)) :
    ExprLaid g s (.object span properties) := by
  obtain ⟨hinside, hapart⟩ := enclosed_iff.mp (nestedExpr_of_isNested h).2
  refine .of_enclosed (L := propertyLeaves properties) rfl (fun _ _ => ?_) hinside fun _ _ hlaid => ?_
  · rw [traceExpr]
    exact laid_properties hproperties hapart
  · rw [leaves]
    exact hlaid

theorem laid_function {name : Option Ident} {fn : Func}
    (h : (Node.expr (.function span name fn)).isNested = true) (hfn : NodeLaid g s (.func fn)) :
    ExprLaid g s (.function span name fn) := by
  obtain ⟨hinside, hapart⟩ := enclosed_iff.mp (nestedExpr_of_isNested h).2
  refine .of_enclosed (L := funcLeaves fn) rfl (fun _ _ => ?_) hinside fun _ _ hlaid => ?_
  · cases name with
    | none => rw [traceExpr]; exact hfn hapart
    | some name => rw [traceExpr]; exact (Laid.cons_quiet rfl (hfn hapart)).framed
  · cases fn
    rw [leaves]
    exact hlaid

theorem laid_classDef {name : Option Ident} {c : Syntax.Class}
    (h : (Node.expr (.classDef span name c)).isNested = true) (hcls : NodeLaid g s (.cls c)) :
    ExprLaid g s (.classDef span name c) := by
  obtain ⟨hinside, hapart⟩ := enclosed_iff.mp (nestedExpr_of_isNested h).2
  refine .of_enclosed (L := []) rfl (fun _ _ => ?_) hinside fun _ _ hlaid => ?_
  · cases name with
    | none => rw [traceExpr]; exact hcls hapart
    | some name => rw [traceExpr]; exact (Laid.cons_quiet rfl (hcls hapart)).framed
  · rw [leaves]
    · exact hlaid
    all_goals simp

theorem laid_element {attrs : List Attr} {children : List Expr}
    (h : (Node.expr (.element span attrs children)).isNested = true)
    (hattrs : ∀ a ∈ attrs, NodeLaid g s (.attr a)) (hchildren : ∀ e ∈ children, ExprLaid g s e) :
    ExprLaid g s (.element span attrs children) := by
  obtain ⟨hinside, hapart⟩ := enclosed_iff.mp (nestedExpr_of_isNested h).2
  obtain ⟨happart, hbelow, hbeside⟩ := List.pairwise_append.mp hapart
  have hall := (laid_attrs hattrs happart).append (laid_exprs hchildren hbelow) hbeside
  refine .of_enclosed (L := []) rfl (fun _ _ => ?_) hinside fun _ _ hlaid => ?_
  · rw [traceExpr]
    exact hall
  · rw [leaves]
    · exact hlaid
    all_goals simp

include hok in
/-- By cases on the expression: its events are laid over its span if those of its parts are. -/
theorem laid_expr (hhere : Walkable g s (.expr e)) (hbelow : ∀ c ∈ Node.ofExpr e, Walkable g s c)
    (hsub : ∀ c ∈ Node.ofExpr e, NodeLaid g s c) : ExprLaid g s e := by
  obtain ⟨hhere, hcuts, hcareful⟩ := hhere
  obtain ⟨hle, hnested⟩ := nestedExpr_of_isNested hhere
  cases e with
  | name id => exact laid_name (Span.isFilled_iff.mp hnested) hcuts
  | field span link object =>
    obtain ⟨hlo, hhi⟩ := Span.opensWith_iff.mp hnested
    exact laid_field (hsub (.expr object) (by simp)) hle hlo hhi hcuts
  | index span link object key =>
    simp only [Node.nestedExpr, Bool.and_eq_true, Span.opensWith_iff, Span.encloses_iff,
      Span.isApart_iff] at hnested
    obtain ⟨⟨⟨hlo, hhi⟩, hinside⟩, hapart⟩ := hnested
    exact laid_index (hsub (.expr object) (by simp)) (hsub (.expr key) (by simp)) hle hlo hhi hinside
      hapart hcuts
  | call span link callee args =>
    simp only [Node.nestedExpr, Bool.and_eq_true, List.all_eq_true, Span.opensWith_iff,
      Span.encloses_iff, Span.allApart_iff, List.pairwise_cons] at hnested
    obtain ⟨⟨⟨hlo, hhi⟩, hinside⟩, hcallee, hargs⟩ := hnested
    exact laid_call hok (hsub (.expr callee) (by simp))
      (laid_items (fun i hi => hsub _ (by simp [hi])) hargs) hle hlo hhi hinside
      (by simpa [AllApart] using hcallee) hcuts fun h => (hcareful h).1
  | wrapped span kind inner =>
    have hheld : span.lo ≤ inner.span.lo ∧ inner.span.hi ≤ span.hi := by
      cases kind <;> simp only [Node.nestedExpr, Span.encloses_iff, Span.opensWith_iff,
        Span.holds_iff, Span.closesWith_iff] at hnested <;> omega
    refine laid_wrapped (hsub (.expr inner) (by simp)) hle hheld.1 hheld.2 ?_
    rintro rfl
    exact hcuts
  | assign span plain target value =>
    simp only [Node.nestedExpr, Bool.and_eq_true, List.all_eq_true, Span.opensWith_iff,
      Span.closesWith_iff, Span.allApart_iff, List.pairwise_append] at hnested
    obtain ⟨⟨⟨hstart, hopens⟩, hcloses⟩, htarget, _, hapart⟩ := hnested
    exact laid_assign (hsub (.pattern target) (by simp) htarget) (hsub (.expr value) (by simp))
      hstart hcloses hopens hapart
  | update span operand =>
    obtain ⟨hlo, hhi⟩ := Span.holds_iff.mp hnested
    refine laid_update (hsub (.expr operand) (by simp)) ?_ hlo hhi
    rintro id rfl
    obtain ⟨hname, hcuts, _⟩ := hbelow (.expr (.name id)) (by simp)
    exact ⟨Span.isFilled_iff.mp (nestedExpr_of_isNested hname).2, hcuts⟩
  | arrow span params body =>
    simp only [Node.nestedExpr, Bool.and_eq_true, List.all_eq_true, Span.opensWith_iff,
      Span.encloses_iff, Span.allApart_iff, List.pairwise_append] at hnested
    obtain ⟨⟨⟨hstart, hopens⟩, hinside⟩, hparams, hbody, hapart⟩ := hnested
    exact laid_arrow (laid_patterns (fun p hp => hsub _ (by simp [hp])) hparams) hstart hopens
      (laid_stmts (fun st hst => hsub _ (by simp [hst])) hbody) hinside hapart
  | arrowTo span params result =>
    simp only [Node.nestedExpr, Bool.and_eq_true, List.all_eq_true, Span.opensWith_iff,
      Span.closesWith_iff, Span.allApart_iff, List.pairwise_append] at hnested
    obtain ⟨⟨⟨hstart, hopens⟩, hcloses⟩, hparams, _, hapart⟩ := hnested
    exact laid_arrowTo (laid_patterns (fun p hp => hsub _ (by simp [hp])) hparams) hstart hopens
      (hsub (.expr result) (by simp)) hcloses hapart
  | compound span form parts =>
    simp only [Node.nestedExpr, Bool.and_eq_true, List.all_eq_true, Span.holdsAll_iff,
      decide_eq_true_eq] at hnested
    obtain ⟨⟨hheld, hapart⟩, htail⟩ := hnested
    exact laid_compound (fun e he => hsub (.expr e) (by simp [he]))
      (fun e he => hheld _ (List.mem_map_of_mem he)) htail hapart
  | keywordCall span args => exact laid_keywordCall hhere hcuts fun i hi => hsub _ (by simp [hi])
  | array span items => exact laid_array hhere fun i hi => hsub _ (by simp [hi])
  | object span properties => exact laid_object hhere fun p hp => hsub _ (by simp [hp])
  | function span name fn => exact laid_function hhere (hsub _ (by simp))
  | classDef span name c => exact laid_classDef hhere (hsub _ (by simp))
  | element span attrs children =>
    exact laid_element hhere (fun a ha => hsub _ (by simp [ha])) fun e he =>
      hsub (.expr e) (by simp [he])

theorem laid_item {i : Item} (hsub : ∀ c ∈ (Node.item i).children, NodeLaid g s c) :
    NodeLaid g s (.item i) := by
  rw [NodeLaid]
  cases i with
  | hole =>
    simp only [traceItems, itemLeaves]
    exact .nil
  | one e =>
    have h : ExprLaid g s e := hsub (.expr e) (by simp [Item.expr?])
    simp only [traceItems, itemLeaves, List.append_nil]
    exact h.laid [] false
  | spread e =>
    have h : ExprLaid g s e := hsub (.expr e) (by simp [Item.expr?])
    simp only [traceItems, itemLeaves, List.append_nil]
    exact (h.laid [] false).forget

theorem laid_key {k : Key} (hsub : ∀ c ∈ (Node.key k).children, NodeLaid g s c) :
    NodeLaid g s (.key k) := by
  rw [NodeLaid]
  cases k with
  | computed e =>
    have h : ExprLaid g s e := hsub (.expr e) (by simp)
    rw [traceKey]
    exact (h.laid [] false).forget
  | _ =>
    rw [traceKey]
    exact .nil

/-- Members are laid over their keys and values, and the functions among them over their own span.
-/
theorem laid_property {p : Property} (hhere : Walkable g s (.property p))
    (hsub : ∀ c ∈ Node.ofProperty p, NodeLaid g s c) :
    NodeLaid g s (.property p) := by
  rw [NodeLaid]
  intro hapart
  cases p with
  | shorthand id =>
    have h : Laid g [id.span] [mention s { id, isShorthand := true }] [.shorthand id] :=
      laid_mention { id, isShorthand := true } (Span.isFilled_iff.mp hhere.1) hhere.2.1
    simp only [traceProperties, propertyLeaves]
    exact h
  | pair k value =>
    have hkey : NodeLaid g s (.key k) := hsub _ (by simp)
    have hvalue : ExprLaid g s value := hsub (.expr value) (by simp)
    simp only [Property.spans, List.pairwise_append] at hapart
    simp only [traceProperties, propertyLeaves, List.append_nil]
    exact hkey.append (hvalue.laid [] false) hapart.2.2
  | default id value =>
    have hvalue : ExprLaid g s value := hsub (.expr value) (by simp)
    simp only [traceProperties, propertyLeaves, List.append_nil]
    exact (hvalue.laid [] false).forget
  | getter span k body =>
    have hkey : NodeLaid g s (.key k) := hsub _ (by simp)
    simp only [Property.spans, List.pairwise_append] at hapart
    have hbody := laid_stmts (fun st hst => hsub _ (by simp [hst])) hapart.2.1
    simp only [traceProperties, propertyLeaves, List.append_nil]
    exact hkey.append hbody.forget.framed hapart.2.2
  | setter span k param body =>
    have hkey : NodeLaid g s (.key k) := hsub _ (by simp)
    simp only [Property.spans, List.append_assoc, List.pairwise_append] at hapart
    obtain ⟨_, ⟨hparam, hstmts, hapart'⟩, hapart⟩ := hapart
    have hpattern : PatternLaid g s param :=
      hsub (.pattern param) (by simp) hparam
    have hbody := laid_stmts (fun st hst => hsub _ (by simp [hst])) hstmts
    simp only [traceProperties, propertyLeaves, List.append_nil, Property.spans, List.append_assoc]
    rw [← List.append_assoc (declareAll _ _)]
    exact hkey.append (hpattern.declared.append hbody.forget hapart').function hapart
  | method span k fn =>
    have hkey : NodeLaid g s (.key k) := hsub _ (by simp)
    simp only [Property.spans, List.pairwise_append] at hapart
    have hfn : Laid g fn.spans (traceFunc s fn) (funcLeaves fn) :=
      hsub (.func fn) (by simp) hapart.2.1
    simp only [traceProperties, propertyLeaves, List.append_nil]
    exact hkey.append hfn.forget hapart.2.2
  | spread e =>
    have h : ExprLaid g s e := hsub (.expr e) (by simp)
    simp only [traceProperties, propertyLeaves, List.append_nil]
    exact (h.laid [] false).forget

/-- A pattern in brackets reaches behind what it takes away. -/
theorem PatternLaid.of_enclosed {p : Pattern} {S : List Span} (hspans : p.spans = [span])
    (hinside : ∀ a ∈ S, span.lo < a.lo ∧ a.hi < span.hi) (hdeclared : Laid g S (tracePattern s p) [])
    (hassigned : Laid g S (traceTarget s p) []) : PatternLaid g s p := by
  have hheld : ∀ a ∈ S, span.lo ≤ a.lo ∧ a.hi ≤ span.hi := fun a ha =>
    ⟨Nat.le_of_lt (hinside a ha).1, Nat.le_of_lt (hinside a ha).2⟩
  refine ⟨hspans ▸ hdeclared.widen hheld, hspans ▸ hassigned.widen hheld, fun hcareful r hr => ?_⟩
  obtain ⟨a, ha, hlo, _⟩ := (hassigned.tidy hcareful).range_held r hr
  have := hinside a ha
  exact .inl ⟨span, by simp [hspans], by omega⟩

/-- Patterns are laid both as what is declared and as what is assigned to. -/
theorem laid_pattern {p : Pattern} (hhere : Walkable g s (.pattern p))
    (hsub : ∀ c ∈ Node.ofPattern p, NodeLaid g s c) :
    NodeLaid g s (.pattern p) := by
  rw [NodeLaid]
  intro hapart
  obtain ⟨hnested, hcuts, _⟩ := hhere
  cases p with
  | name id =>
    have h : Laid g [id.span] [mention s { id, isWrite := true }] [.shorthand id] :=
      laid_mention { id, isWrite := true } (Span.isFilled_iff.mp hnested) hcuts
    refine ⟨?_, ?_, ?_⟩
    · rw [tracePattern]
      exact Laid.nil.widen (by simp)
    · rw [traceTarget]
      exact h.forget
    · simp [traceTarget, mention, Event.ranges]
  | object span fields =>
    simp only [Node.isNested, Bool.and_eq_true] at hnested
    obtain ⟨hinside, hfields⟩ := enclosed_iff.mp (Bool.and_eq_true_iff.mpr ⟨hnested.1.2, hnested.2⟩)
    obtain ⟨hdeclared, hassigned⟩ := laid_fields (fun f hf => hsub _ (by simp [hf])) hfields
    exact .of_enclosed rfl hinside (by rwa [tracePattern]) (by rwa [traceTarget])
  | array span items =>
    simp only [Node.isNested, Bool.and_eq_true] at hnested
    obtain ⟨hinside, hitems⟩ := enclosed_iff.mp (Bool.and_eq_true_iff.mpr ⟨hnested.1.2, hnested.2⟩)
    have hpatterns : ∀ p ∈ items, NodeLaid g s (.pattern p) := fun p hp => hsub _ (by simp [hp])
    refine .of_enclosed rfl hinside ?_ ?_
    · rw [tracePattern]
      exact laid_patterns hpatterns hitems
    · rw [traceTarget]
      exact laid_targets hpatterns hitems
  | default target value =>
    simp only [Pattern.spans, List.pairwise_append] at hapart
    have htarget : PatternLaid g s target :=
      hsub (.pattern target) (by simp) hapart.1
    have hvalue : ExprLaid g s value := hsub (.expr value) (by simp)
    refine ⟨?_, ?_, ?_⟩
    · rw [tracePattern]
      exact htarget.declared.append (hvalue.laid [] false).forget hapart.2.2
    · rw [traceTarget]
      exact htarget.assigned.append (hvalue.laid [] false).forget hapart.2.2
    · exact fun _ _ _ => .inr (.inr (.inl ⟨target, value, rfl⟩))
  | rest target =>
    have htarget : PatternLaid g s target :=
      hsub (.pattern target) (by simp) hapart
    refine ⟨?_, ?_, ?_⟩
    · rw [tracePattern]
      exact htarget.declared
    · rw [traceTarget]
      exact htarget.assigned
    · exact fun _ _ _ => .inr (.inr (.inr ⟨target, rfl⟩))
  | expr e =>
    have h : ExprLaid g s e := hsub (.expr e) (by simp)
    refine ⟨?_, ?_, ?_⟩
    · rw [tracePattern]
      exact (h.laid [] false).forget
    · rw [traceTarget]
      exact (h.laid [] false).forget
    · intro hcareful r hr
      rw [traceTarget] at hr
      exact .inr (.inl ⟨e, rfl, h.starts hcareful _ r hr⟩)
  | hole | invalid =>
    refine ⟨?_, ?_, ?_⟩
    · rw [tracePattern]
      exact .nil
    · rw [traceTarget]
      exact .nil
    · simp [traceTarget]

theorem laid_field_node {f : PatternField} (hhere : Walkable g s (.field f))
    (hsub : ∀ c ∈ Node.ofField f, NodeLaid g s c) : NodeLaid g s (.field f) := by
  rw [NodeLaid]
  intro hapart
  cases f with
  | shorthand id value =>
    simp only [PatternField.spans, List.pairwise_cons] at hapart
    have hvalue := laid_option hsub
    have hid : Laid g [id.span]
        [mention s { id, isWrite := true, isShorthand := true }] [.shorthand id] :=
      laid_mention { id, isWrite := true, isShorthand := true } (Span.isFilled_iff.mp hhere.1)
        hhere.2.1
    have hfree : Laid g [id.span] [] [] := Laid.nil.widen (by simp)
    simp only [traceFields, traceTargetFields, List.append_nil]
    exact ⟨hfree.append hvalue (by simpa [AllApart] using hapart.1),
      hid.forget.append hvalue (by simpa [AllApart] using hapart.1)⟩
  | pair k value =>
    have hkey : NodeLaid g s (.key k) := hsub _ (by simp)
    simp only [PatternField.spans, List.pairwise_append] at hapart
    have hvalue : PatternLaid g s value :=
      hsub (.pattern value) (by simp) hapart.2.1
    simp only [traceFields, traceTargetFields, List.append_nil]
    exact ⟨hkey.append hvalue.declared hapart.2.2, hkey.append hvalue.assigned hapart.2.2⟩
  | rest target =>
    have htarget : PatternLaid g s target :=
      hsub (.pattern target) (by simp) hapart
    simp only [traceFields, traceTargetFields, List.append_nil]
    exact ⟨htarget.declared, htarget.assigned⟩

theorem laid_param {p : Param} (hsub : ∀ c ∈ (Node.param p).children, NodeLaid g s c) :
    NodeLaid g s (.param p) := by
  rw [NodeLaid]
  cases p with
  | mk decorators pattern =>
    simp only [traceParamPatterns, traceParamDecorators, List.append_nil]
    refine ⟨fun hapart => ?_, fun hapart => ?_⟩
    · have h : PatternLaid g s pattern :=
        hsub (.pattern pattern) (by simp) hapart
      exact h.declared
    · exact laid_exprs (fun e he => hsub (.expr e) (by simp [he])) hapart

theorem laid_func {f : Func} (hsub : ∀ c ∈ (Node.func f).children, NodeLaid g s c) :
    NodeLaid g s (.func f) := by
  rw [NodeLaid]
  intro hapart
  cases f with
  | mk decorators params body =>
    simp only [Func.spans, List.append_assoc, List.pairwise_append] at hapart
    obtain ⟨hdecorators, ⟨hpatterns, ⟨hothers, hstmts, hapart₃⟩, hapart₂⟩, hapart₁⟩ := hapart
    have hparams : ∀ p ∈ params, NodeLaid g s (.param p) :=
      fun p hp => hsub _ (by simp [hp])
    have hbody := laid_stmts (fun st hst => hsub _ (by simp [hst])) hstmts
    have hrest := (laid_paramPatterns hparams hpatterns).append
      ((laid_paramDecorators hparams hothers).append hbody hapart₃) hapart₂
    have hfirst := laid_exprs (fun e he => hsub (.expr e) (by simp [he])) hdecorators
    simp only [traceFunc, Func.spans, List.append_assoc, funcLeaves]
    exact (hfirst.append hrest.declared hapart₁).framed

theorem laid_cls {c : Syntax.Class} (hsub : ∀ d ∈ (Node.cls c).children, NodeLaid g s d) :
    NodeLaid g s (.cls c) := by
  rw [NodeLaid]
  intro hapart
  cases c with
  | mk decorators members heritage =>
    simp only [Class.spans, List.append_assoc, List.pairwise_append] at hapart
    obtain ⟨hdecorators, ⟨hmembers, hheritage, hapart₂⟩, hapart₁⟩ := hapart
    have hall := (laid_exprs (fun e he => hsub (.expr e) (by simp [he]))
      hdecorators).append ((laid_members
        (fun m hm => hsub _ (by simp [hm])) hmembers).append
          (laid_exprs (fun e he => hsub (.expr e) (by simp [he])) hheritage)
          hapart₂) hapart₁
    simp only [traceClass, Class.spans, List.append_assoc]
    exact hall

/-- Members without a span are laid over those of their parts. -/
theorem laid_member {m : Member} (hsub : ∀ c ∈ Node.ofMember m, NodeLaid g s c) :
    NodeLaid g s (.member m) := by
  rw [NodeLaid]
  intro hapart
  cases m with
  | method k fn =>
    have hkey : NodeLaid g s (.key k) := hsub _ (by simp)
    simp only [Member.spans, List.pairwise_append] at hapart
    have hfn : Laid g fn.spans (traceFunc s fn) (funcLeaves fn) :=
      hsub (.func fn) (by simp) hapart.2.1
    simp only [traceMembers, List.append_nil]
    exact hkey.append hfn.forget hapart.2.2
  | constructor params body =>
    simp only [Member.spans, List.pairwise_append] at hapart
    have hparams := laid_params (fun p hp => hsub _ (by simp [hp])) hapart.1
    have hbody := laid_stmts (fun st hst => hsub _ (by simp [hst])) hapart.2.1
    simp only [traceMembers, List.append_nil]
    exact (hparams.append hbody.forget hapart.2.2).function
  | property k value decorators =>
    have hkey : NodeLaid g s (.key k) := hsub _ (by simp)
    simp only [Member.spans, List.append_assoc, List.pairwise_append] at hapart
    obtain ⟨_, ⟨_, hdecorators, hapart₂⟩, hapart₁⟩ := hapart
    have hvalue : Laid g (value.toList.map Expr.span) (traceOption s value) [] :=
      laid_option fun c hc => hsub c (by rw [Node.ofMember]; simp [hc])
    have hothers := laid_exprs (fun e he => hsub (.expr e) (by simp [he])) hdecorators
    simp only [traceMembers, List.append_nil, Member.spans, List.append_assoc]
    exact hkey.append (hvalue.append hothers hapart₂) hapart₁
  | staticBlock body =>
    simp only [traceMembers, List.append_nil]
    exact (laid_stmts (fun st hst => hsub _ (by simp [hst])) hapart).forget.framed

/-- A name that loses the sigil behind it. -/
theorem laid_sigil {id : Ident} (hfilled : id.span.lo < id.span.hi) (hcuts : CutsName g.ok id)
    (hsigil : Sigil.endsWithSigil id.name = true) :
    Laid g [id.span] [stripTrailing id.span] [] := by
  have hfree : Laid g [id.span] [] [] := Laid.nil.widen (by simp)
  have hstrip : stripTrailing id.span =
      .edit (.remove (id.span.hi - 1) (id.span.hi - 1 + 1)) := by
    rw [stripTrailing, Nat.sub_add_cancel (by omega)]
  rw [hstrip]
  exact hfree.strip (by simp : id.span ∈ [id.span]) (by omega) (by omega) (hcuts.2.2 hsigil)
    (by rw [Nat.sub_add_cancel (by omega)]; exact hcuts.2.1) (by simp)

theorem endsWithSigil_of_isSigilName {name : String} (h : Sigil.isSigilName name = true) :
    Sigil.endsWithSigil name = true := by
  simp only [Sigil.isSigilName, Bool.and_eq_true] at h
  exact h.2

/-- The name of an attribute is apart from its value. -/
theorem laid_attr {a : Attr} (hhere : Walkable g s (.attr a))
    (hsub : ∀ c ∈ (Node.attr a).children, ∀ b, NodeLaid g { s with isExempt := b } c) :
    NodeLaid g s (.attr a) := by
  rw [NodeLaid]
  intro hapart
  cases a with
  | spread e =>
    have h : ExprLaid g s e := hsub (.expr e) (by simp) s.isExempt
    simp only [traceAttrs, List.append_nil]
    exact (h.laid [] false).forget
  | named name braced value =>
    have hvalue := laid_option fun c hc => hsub c hc (s.isExempt || s.isExemptAttr name)
    simp only [traceAttrs, List.append_nil]
    cases name with
    | qualified span space => exact hvalue
    | plain id =>
      have hfilled := Span.isFilled_iff.mp hhere.1
      have hfree : Laid g [id.span] [] [] := Laid.nil.widen (by simp)
      have hbeside : AllApart [id.span] (value.toList.map Expr.span) := by
        simpa [AllApart] using (List.pairwise_cons.mp hapart).1
      rw [attrEvents.eq_def]
      dsimp only
      split
      · rename_i hsigil
        simp only [Bool.and_eq_true, Sigil.isSigilAttribute] at hsigil
        have hname : Laid g [id.span] [stripTrailing id.span] [] :=
          laid_sigil hfilled hhere.2.1 (endsWithSigil_of_isSigilName hsigil.2.1)
        cases value with
        | none => exact hname.append hvalue hbeside
        | some e =>
          have h : ExprLaid g { s with isExempt := _ } e :=
            hsub (.expr e) (by simp) (s.isExempt || s.isExemptAttr (.plain id))
          rw [traceOption]
          exact hname.append ((h.laid [] false).wrapped _).forget hbeside
      · exact hfree.append hvalue hbeside

/-- A declared function loses the sigil behind its name, and what it returns is wrapped. -/
theorem functionValueEvents_cases (target : Pattern) (init : Option Expr) :
    functionValueEvents s target init = [] ∨ ∃ id e, target = .name id ∧ init = some e ∧
      Sigil.isSigilName id.name = true ∧
      functionValueEvents s target init =
        stripTrailing id.span :: wrap s.options.wrapFn (leaves e) := by
  unfold functionValueEvents
  split
  all_goals
    first
    | exact .inl rfl
    | split
      · exact .inr ⟨_, _, rfl, rfl, ‹_›, rfl⟩
      · exact .inl rfl

theorem plan?_span {source : List Char} {plan : Unpack.Plan}
    (h : Unpack.plan? source target = some plan) :
    (∃ fields, target = .object plan.span fields) ∨ ∃ items, target = .array plan.span items := by
  cases target with
  | object span fields =>
    obtain ⟨_, _, rfl⟩ := Option.map_eq_some_iff.mp h
    exact .inl ⟨fields, rfl⟩
  | array span items =>
    obtain ⟨_, _, rfl⟩ := Option.map_eq_some_iff.mp h
    exact .inr ⟨items, rfl⟩
  | _ => simp [Unpack.plan?] at h

/-- A pattern that is unpacked is overwritten as a whole. -/
theorem plan_cuts {source : List Char} {plan : Unpack.Plan}
    (hplan : Unpack.plan? source target = some plan) (hfilled : target.isFilled = true)
    (hcuts : CutsPattern g.ok target) :
    target.spans = [plan.span] ∧ plan.span.lo < plan.span.hi ∧ g.ok plan.span.lo ∧
      g.ok plan.span.hi := by
  rcases plan?_span hplan with ⟨fields, rfl⟩ | ⟨items, rfl⟩ <;>
    exact ⟨rfl, Span.isFilled_iff.mp hfilled, hcuts⟩

/-- What a declaration that is to be unwrapped does by itself. -/
theorem unwrapEvents?_cases {place : Place} {stop : Nat}
    {own : List Event} (h : unwrapEvents? s place stop callee target = some own) :
    takesSigil s target = true ∧
      ((∃ id, target = .name id ∧ own = [.unwrap place id.name, stripLeading callee.span]) ∨
        ∃ plan, Unpack.plan? s.source target = some plan ∧
          own = [.unpack place plan stop, stripLeading callee.span]) := by
  unfold unwrapEvents? at h
  split at h
  · rename_i id
    exact ⟨rfl, .inl ⟨id, rfl, (Option.some.inj h).symm⟩⟩
  · obtain ⟨plan, hplan, rfl⟩ := Option.map_eq_some_iff.mp h
    refine ⟨?_, .inr ⟨plan, hplan, rfl⟩⟩
    unfold takesSigil
    split
    · rfl
    · rw [hplan, Option.isSome_some]

include hok in
/-- The value of a declaration that has taken away the sigil of its call. -/
theorem laid_taken (h : ExprLaid g s e) (hcallee : unwrapCallee? s (some e) = some callee)
    (hhead : g.careful → HeadStripped s callee → g.twice callee.span.lo) :
    Laid g [e.span] (stripLeading callee.span :: traceExpr s [] true e) (leaves e) := by
  obtain ⟨hdeclared, hunwrap⟩ := Option.filter_eq_some_iff.mp hcallee
  rw [Option.bind_some] at hdeclared
  obtain ⟨hpos, hpos', hfilled⟩ := boundaries_of_front (head_of_isUnwrapCall hunwrap)
  have hheld := h.callee_held callee hdeclared
  refine (h.laid [] true).strip (by simp : e.span ∈ [e.span]) hheld.1 (by omega) (hok _ hpos)
    (hok _ hpos') fun hcareful r hr => ?_
  exact (h.settled_clear hcareful [] callee hdeclared hunwrap r hr).imp_right fun hstart =>
    ⟨hhead hcareful hstart.1, hstart.2⟩

/-- A declaration whose value is not unwrapped. -/
theorem laid_ordinary {span : Span} {target : Pattern} {init : Option Expr} {place : Place}
    (hheld : ∀ a ∈ target.spans ++ init.toList.map Expr.span, span.lo ≤ a.lo ∧ a.hi ≤ span.hi)
    (hapart : AllApart target.spans (init.toList.map Expr.span))
    (htarget : PatternLaid g s target)
    (hname : ∀ id, target = .name id → id.span.lo < id.span.hi ∧ CutsName g.ok id)
    (hinit : ∀ c ∈ init.toList.map Node.expr, NodeLaid g s c) :
    Laid g [span]
      (declareAll place (boundNames target) ++ functionValueEvents s target init ++
        tracePattern s target ++ traceOption s init) [] := by
  rw [List.append_assoc, List.append_assoc]
  refine Laid.declared ?_
  rcases functionValueEvents_cases target init with h | ⟨id, e, rfl, rfl, hsigil, h⟩
  · rw [h]
    exact (htarget.declared.append (laid_option hinit) hapart).widen hheld
  · -- the name loses its sigil, and the leaves of the value are wrapped
    have hvalue : ExprLaid g s e := hinit (.expr e) (by simp)
    obtain ⟨hfilled, hcuts⟩ := hname id rfl
    have hid : Laid g [id.span] [stripTrailing id.span] [] :=
      laid_sigil hfilled hcuts (endsWithSigil_of_isSigilName hsigil)
    rw [h, tracePattern, traceOption, List.nil_append]
    exact (hid.append ((hvalue.laid [] false).wrapped _).forget hapart).widen hheld

include hok in
/-- A declaration whose value is unwrapped. -/
theorem laid_unwrapped {span : Span} {place : Place}
    {own : List Event} (hown : unwrapEvents? s place span.hi callee target = some own)
    (hfilled : target.isFilled = true)
    (hheld : ∀ a ∈ target.spans ++ [e.span], span.lo ≤ a.lo ∧ a.hi ≤ span.hi)
    (hapart : AllApart target.spans [e.span]) (hstop : g.ok span.hi) (hcuts : CutsPattern g.ok target)
    (hvalue : ExprLaid g s e) (hcallee : unwrapCallee? s (some e) = some callee)
    (honce : g.careful → StripsOnce g.twice s (.declarator (.mk span target (some e)))) :
    Laid g [span] (own ++ traceExpr s [] true e) [] := by
  obtain ⟨htakes, hcases⟩ := unwrapEvents?_cases hown
  have hhead : g.careful → HeadStripped s callee → g.twice callee.span.lo :=
    fun hcareful hhead => honce hcareful ⟨htakes, callee, hcallee, hhead⟩ callee hcallee
  have htaken := (laid_taken hok hvalue hcallee hhead).forget
  have hvalueHeld := hheld e.span (by simp)
  rcases hcases with ⟨id, rfl, rfl⟩ | ⟨plan, hplan, rfl⟩
  · exact Laid.cons_quiet rfl (htaken.widen_one hvalueHeld)
  · obtain ⟨hspans, hfilled, hlo, hhi⟩ := plan_cuts hplan hfilled hcuts
    rw [hspans] at hheld hapart
    have hplanHeld := hheld plan.span (by simp)
    have hunpack : Laid g [plan.span, ⟨span.hi, span.hi⟩] [.unpack place plan span.hi] [] :=
      .unpack hfilled hlo hhi hplanHeld.2 hstop
    have hbeside : AllApart [plan.span, ⟨span.hi, span.hi⟩] [e.span] := by
      simp only [AllApart, List.mem_cons, List.not_mem_nil, or_false, forall_eq_or_imp, forall_eq]
      exact ⟨hapart plan.span (by simp) e.span (by simp), .inr hvalueHeld.2⟩
    refine (hunpack.append htaken hbeside).widen ?_
    simp only [List.cons_append, List.nil_append, List.mem_cons, List.not_mem_nil, or_false,
      forall_eq_or_imp, forall_eq]
    exact ⟨hplanHeld, ⟨by omega, Nat.le_refl _⟩, hvalueHeld⟩

include hok in
/-- The sigil of a value is taken away by the declaration alone, unless twice is expected. -/
theorem laid_declarator {d : Declarator} (hhere : Walkable g s (.declarator d))
    (hbelow : ∀ c ∈ walked s (.declarator d), Walkable g s c)
    (hsub : ∀ c ∈ walked s (.declarator d), NodeLaid g s c) :
    NodeLaid g s (.declarator d) := by
  rw [NodeLaid]
  intro place
  obtain ⟨hnested, hcuts, hcareful⟩ := hhere
  cases d with
  | mk span target init =>
    simp only [Node.isNested, Node.nestedDeclarator, Bool.and_eq_true, Span.holdsAll_iff,
      List.pairwise_append] at hnested
    obtain ⟨hfilled, hheld, htargetApart, _, hapart⟩ := hnested
    have hinit : ∀ c ∈ init.toList.map Node.expr, NodeLaid g s c :=
      fun c hc => hsub c (by rw [walked]; simp [hc])
    have htarget : isUnpacked s target init = false → PatternLaid g s target := by
      intro hkept
      exact hsub (.pattern target) (by simp [hkept]) htargetApart
    simp only [traceDeclarators, List.append_nil]
    cases hcallee : unwrapCallee? s init with
    | none =>
      have hkept : isUnpacked s target init = false := by simp [isUnpacked, hcallee]
      refine laid_ordinary hheld hapart (htarget hkept) ?_ hinit
      rintro id rfl
      obtain ⟨hname, hnameCuts, _⟩ := hbelow (.pattern (.name id)) (by simp [hkept])
      exact ⟨Span.isFilled_iff.mp hname, hnameCuts⟩
    | some callee =>
      dsimp only
      cases init with
      | none => simp [unwrapCallee?] at hcallee
      | some e =>
        have hvalue : ExprLaid g s e := hinit (.expr e) (by simp)
        rw [traceSettled]
        cases hown : unwrapEvents? s place span.hi callee target with
        | none =>
          have hkept : isUnpacked s target (some e) = false := by
            unfold unwrapEvents? at hown
            split at hown
            · simp at hown
            · simp_all [isUnpacked]
          rw [Option.getD_none, List.append_assoc]
          exact (((htarget hkept).declared.append (hvalue.laid [] true).forget hapart).widen
            hheld).declared
        | some own =>
          exact laid_unwrapped hok hown hfilled hheld hapart hcuts.1 hcuts.2 hvalue hcallee
            fun h => (hcareful h).2

/-- A declared resource. -/
theorem laid_resource {d : Declarator} (hnested : Node.nestedDeclarator d = true)
    (hsub : ∀ c ∈ (Node.declarator d).children, NodeLaid g s c) :
    Laid g [d.span] (traceResources s [d]) [] := by
  cases d with
  | mk span target init =>
    simp only [Node.nestedDeclarator, Bool.and_eq_true, Span.holdsAll_iff,
      List.pairwise_append] at hnested
    obtain ⟨_, hheld, htargetApart, _, hapart⟩ := hnested
    have htarget : PatternLaid g s target :=
      hsub (.pattern target) (by simp) htargetApart
    have hinit : Laid g (init.toList.map Expr.span) (traceOption s init) [] :=
      laid_option fun c hc => hsub c (by rw [Node.children]; simp [hc])
    simp only [traceResources, List.append_nil]
    exact (htarget.declared.append hinit hapart).widen hheld

/-! Statements. What a statement leaves to be wrapped is what it returns. -/

theorem laid_ret {value : Option Expr} (h : Node.nestedStmt (.ret span value) = true)
    (hvalue : ∀ e ∈ value, ExprLaid g s e) : NodeLaid g s (.stmt (.ret span value)) := by
  obtain ⟨hheld, _⟩ := Span.holdsAll_iff.mp h
  cases value with
  | none =>
    simp only [NodeLaid, traceStmt, traceOption, returnLeaves]
    exact Laid.nil.widen (by simp)
  | some e =>
    simp only [NodeLaid, traceStmt, traceOption, returnLeaves, List.append_nil]
    exact ((hvalue e rfl).laid [] false).widen hheld

theorem laid_vars {kind : VarKind} {decls : List Declarator}
    (h : Node.nestedStmt (.vars span kind decls) = true)
    (hdecls : ∀ d ∈ decls, NodeLaid g s (.declarator d)) :
    NodeLaid g s (.stmt (.vars span kind decls)) := by
  obtain ⟨hheld, hapart⟩ := Span.holdsAll_iff.mp h
  rw [List.map_eq_flatMap] at hheld hapart
  simp only [NodeLaid, traceStmt, returnLeaves]
  rw [traceDeclarators_eq]
  exact (Laid.flatMap (fun d hd => hdecls d hd _) hapart).forget.widen hheld

theorem laid_resources {decls : List Declarator} (h : Node.nestedStmt (.resource span decls) = true)
    (hsub : ∀ d ∈ decls, ∀ c ∈ (Node.declarator d).children, NodeLaid g s c) :
    NodeLaid g s (.stmt (.resource span decls)) := by
  simp only [Node.nestedStmt, Bool.and_eq_true, List.all_eq_true, Span.holdsAll_iff] at h
  obtain ⟨hdecls, hheld, hapart⟩ := h
  have hresources : ∀ d ∈ decls, Laid g [d.span] (traceResources s [d]) [] :=
    fun d hd => laid_resource (hdecls d hd) (hsub d hd)
  rw [List.map_eq_flatMap] at hheld hapart
  simp only [NodeLaid, traceStmt, returnLeaves]
  rw [traceResources_eq]
  exact (Laid.flatMap hresources hapart).forget.widen hheld

/-- A declared function with a sigil behind its name loses the sigil, and what it returns is wrapped. -/
theorem laid_functionStmt {name : Ident} {fn : Func}
    (h : Node.nestedStmt (.function span name fn) = true) (hcuts : CutsName g.ok name)
    (hfn : NodeLaid g s (.func fn)) : NodeLaid g s (.stmt (.function span name fn)) := by
  simp only [Node.nestedStmt, Bool.and_eq_true, Span.isFilled_iff, Span.holdsAll_iff,
    List.pairwise_cons] at h
  obtain ⟨hfilled, hheld, hname, hspans⟩ := h
  have hfn : Laid g fn.spans (traceFunc s fn) (funcLeaves fn) := hfn hspans
  have hbeside : AllApart [name.span] fn.spans := by simpa [AllApart] using hname
  have hfree : Laid g [name.span] [] [] := Laid.nil.widen (by simp)
  obtain ⟨decorators, params, body⟩ := fn
  simp only [NodeLaid, traceStmt, returnLeaves, List.cons_append]
  refine Laid.cons_quiet rfl ?_
  unfold functionNameEvents
  split
  · rename_i hsigil
    have hid : Laid g [name.span] [stripTrailing name.span] [] :=
      laid_sigil hfilled hcuts (endsWithSigil_of_isSigilName hsigil)
    exact (hid.append (hfn.wrapped _).forget hbeside).widen hheld
  · exact (hfree.append hfn.forget hbeside).widen hheld

theorem laid_loop {start : List Stmt} {parts : List Expr}
    (h : Node.nestedStmt (.loop span start parts body) = true)
    (hstart : ∀ st ∈ start, NodeLaid g s (.stmt st)) (hparts : ∀ e ∈ parts, ExprLaid g s e)
    (hbody : NodeLaid g s (.stmt body)) : NodeLaid g s (.stmt (.loop span start parts body)) := by
  simp only [Node.nestedStmt, Span.holdsAll_iff, List.append_assoc, List.pairwise_append] at h
  obtain ⟨hheld, hapart, ⟨hapart', _, hapart₂⟩, hapart₁⟩ := h
  simp only [NodeLaid, traceStmt, returnLeaves, List.append_assoc]
  exact ((laid_stmts hstart hapart).append ((laid_exprs hparts hapart').append hbody hapart₂)
    hapart₁).forget.framed.widen hheld

theorem laid_loopOver {source : Expr} {decl : Stmt}
    (h : Node.nestedStmt (.loopOver span source decl body) = true) (hsource : ExprLaid g s source)
    (hdecl : NodeLaid g s (.stmt decl)) (hbody : NodeLaid g s (.stmt body)) :
    NodeLaid g s (.stmt (.loopOver span source decl body)) := by
  simp only [Node.nestedStmt, Span.holdsAll_iff, List.pairwise_cons] at h
  obtain ⟨hheld, hfirst, hsecond, _⟩ := h
  simp only [NodeLaid, traceStmt, returnLeaves]
  exact ((hsource.laid [] false).append (hdecl.append hbody (by simpa [AllApart] using hsecond)).framed
    (by simpa [AllApart] using hfirst)).forget.widen hheld

theorem laid_loopInto {source : Expr}
    (h : Node.nestedStmt (.loopInto span source target body) = true) (hsource : ExprLaid g s source)
    (htarget : NodeLaid g s (.pattern target)) (hbody : NodeLaid g s (.stmt body)) :
    NodeLaid g s (.stmt (.loopInto span source target body)) := by
  simp only [Node.nestedStmt, Span.holdsAll_iff, List.cons_append, List.pairwise_cons,
    List.pairwise_append] at h
  obtain ⟨hheld, hfirst, hspans, _, hapart⟩ := h
  simp only [NodeLaid, traceStmt, returnLeaves]
  exact ((hsource.laid [] false).append ((htarget hspans).assigned.append hbody hapart).framed
    (by simpa [AllApart] using hfirst)).forget.widen hheld

theorem laid_handler {params : List Pattern} {body : List Stmt}
    (h : Node.nestedStmt (.handler span params body) = true)
    (hparams : ∀ p ∈ params, NodeLaid g s (.pattern p))
    (hbody : ∀ st ∈ body, NodeLaid g s (.stmt st)) :
    NodeLaid g s (.stmt (.handler span params body)) := by
  simp only [Node.nestedStmt, Span.holdsAll_iff, List.pairwise_append] at h
  obtain ⟨hheld, hpatterns, hstmts, hapart⟩ := h
  simp only [NodeLaid, traceStmt, returnLeaves, List.append_assoc]
  exact ((laid_patterns hparams hpatterns).append (laid_stmts hbody hstmts)
    hapart).forget.declared.framed.widen hheld

/-- By cases on the statement, each in its own lemma where it has an argument. -/
theorem laid_stmt {st : Stmt} (hhere : Walkable g s (.stmt st))
    (hsub : ∀ c ∈ walked s (.stmt st), NodeLaid g s c) : NodeLaid g s (.stmt st) := by
  obtain ⟨hnested, hcuts, _⟩ := hhere
  rw [Node.isNested] at hnested
  cases st with
  | ret span value => exact laid_ret hnested fun e he => hsub (.expr e) (by simp_all)
  | vars span kind decls => exact laid_vars hnested fun d hd => hsub _ (by simp [hd])
  | resource span decls =>
    exact laid_resources hnested fun d hd c hc => hsub c (List.mem_flatMap.mpr ⟨d, hd, hc⟩)
  | function span name fn => exact laid_functionStmt hnested hcuts (hsub _ (by simp))
  | loop span start parts body =>
    exact laid_loop hnested (fun st hst => hsub _ (by simp [hst]))
      (fun e he => hsub (.expr e) (by simp [he])) (hsub _ (by simp))
  | loopOver span source decl body =>
    exact laid_loopOver hnested (hsub (.expr source) (by simp)) (hsub _ (by simp)) (hsub _ (by simp))
  | loopInto span source target body =>
    exact laid_loopInto hnested (hsub (.expr source) (by simp)) (hsub _ (by simp)) (hsub _ (by simp))
  | handler span params body =>
    exact laid_handler hnested (fun p hp => hsub _ (by simp [hp])) fun st hst =>
      hsub _ (by simp [hst])
  | expr span e =>
    have h : ExprLaid g s e := hsub (.expr e) (by simp)
    simp only [NodeLaid, traceStmt, returnLeaves]
    exact (h.laid [] false).forget.widen_one (Span.holds_iff.mp hnested)
  | block span body =>
    obtain ⟨hheld, hapart⟩ := Span.holdsAll_iff.mp hnested
    simp only [NodeLaid, traceStmt, returnLeaves]
    exact (laid_stmts (fun st hst => hsub _ (by simp [hst])) hapart).forget.framed.widen hheld
  | space span body =>
    obtain ⟨hheld, hapart⟩ := Span.holdsAll_iff.mp hnested
    simp only [NodeLaid, traceStmt, returnLeaves]
    exact (laid_stmts (fun st hst => hsub _ (by simp [hst])) hapart).forget.widen hheld
  | classDef span name c =>
    obtain ⟨hheld, hapart⟩ := Span.holdsAll_iff.mp hnested
    have hcls : Laid g c.spans (traceClass s c) [] := hsub (.cls c) (by simp) hapart
    simp only [NodeLaid, traceStmt, returnLeaves]
    exact (Laid.cons_quiet rfl hcls).widen hheld
  | enumeration span name values =>
    obtain ⟨hheld, hapart⟩ := Span.holdsAll_iff.mp hnested
    have hvalues := laid_exprs (fun e he => hsub (.expr e) (by simp [he])) hapart
    simp only [NodeLaid, traceStmt, returnLeaves]
    exact (Laid.cons_quiet rfl hvalues).widen hheld
  | imports span locals =>
    simp only [NodeLaid, traceStmt, returnLeaves]
    rw [← List.append_nil (declareAll _ _)]
    exact Laid.nil.declared.widen (by simp)
  | exported span decl =>
    have hdecl : NodeLaid g s (.stmt decl) := hsub _ (by simp)
    simp only [NodeLaid, traceStmt, returnLeaves]
    exact hdecl.forget.widen_one (Span.holds_iff.mp hnested)
  | switch span subject cases =>
    simp only [Node.nestedStmt, Span.holdsAll_iff, List.pairwise_cons] at hnested
    obtain ⟨hheld, hsubject, hcases⟩ := hnested
    have h : ExprLaid g s subject := hsub (.expr subject) (by simp)
    have hbody := laid_stmts (fun st hst => hsub _ (by simp [hst])) hcases
    simp only [NodeLaid, traceStmt, returnLeaves]
    exact ((h.laid [] false).append hbody.framed
      (by simpa [AllApart] using hsubject)).forget.widen hheld
  | group span parts body =>
    simp only [Node.nestedStmt, Span.holdsAll_iff, List.pairwise_append] at hnested
    obtain ⟨hheld, hparts, hstmts, hapart⟩ := hnested
    have hfirst := laid_exprs (fun e he => hsub (.expr e) (by simp [he])) hparts
    have hbody := laid_stmts (fun st hst => hsub _ (by simp [hst])) hstmts
    simp only [NodeLaid, traceStmt, returnLeaves]
    exact (hfirst.append hbody hapart).forget.widen hheld

include hok in
/-- The events of a tree are laid over its spans. -/
theorem laid_node {n : Node} (h : Node.Everywhere (walked s) (Walkable g s) n) :
    ∀ b, NodeLaid g { s with isExempt := b } n := by
  induction h with
  | @mk n here below ih =>
    intro b
    have hok : ∀ p, Text.isBoundary p ({ s with isExempt := b } : Setting).source = true → g.ok p :=
      hok
    have hbelow : ∀ c ∈ walked s n, Walkable g { s with isExempt := b } c :=
      fun c hc => (below c hc).here
    cases n with
    | expr e => exact laid_expr hok here hbelow fun c hc => ih c hc b
    | item i => exact laid_item fun c hc => ih c hc b
    | property p => exact laid_property here fun c hc => ih c hc b
    | key k => exact laid_key fun c hc => ih c hc b
    | pattern p => exact laid_pattern here fun c hc => ih c hc b
    | field f => exact laid_field_node here fun c hc => ih c hc b
    | param p => exact laid_param fun c hc => ih c hc b
    | func f => exact laid_func fun c hc => ih c hc b
    | cls c => exact laid_cls fun d hd => ih d hd b
    | member m => exact laid_member fun c hc => ih c hc b
    | attr a => exact laid_attr here fun c hc => ih c hc
    | stmt st => exact laid_stmt here fun c hc => ih c hc b
    | declarator d => exact laid_declarator hok here hbelow fun c hc => ih c hc b

end Nodes

end RefSugar.Walk

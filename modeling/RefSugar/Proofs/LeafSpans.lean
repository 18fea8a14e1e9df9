import RefSugar.Proofs.Nesting
import RefSugar.Proofs.Traces

/-! The parts of an expression that get wrapped. They are told by the steps that lead to them, and
in a tree whose spans are well nested they lie in order and apart from each other. -/
namespace RefSugar.Syntax

def Span.inOrder (spans : List Span) : Bool :=
  decide (spans.Pairwise fun a b => a.hi ≤ b.lo)

/-- The span of a member that is wrapped or looked at. -/
def Property.valueSpans : Property → List Span
  | .shorthand id => [id.span]
  | .pair _ value => [value.span]
  | _ => []

/-- The parts of the node that are looked at stand in the order of the text, and a call of a keyword
is not empty. -/
def Node.isInOrder : Node → Bool
  | .expr (.keywordCall span _) => span.isFilled
  | .expr (.array _ items) => Span.inOrder (items.flatMap Item.spans)
  | .expr (.object _ properties) => Span.inOrder (properties.flatMap Property.valueSpans)
  | .expr (.arrow _ _ body) | .func (.mk _ _ body) => Span.inOrder (body.map Stmt.extent)
  | _ => true

def Node.isCutIn (source : List Char) : Node → Bool
  | .expr e => Text.isBoundary e.span.lo source && Text.isBoundary e.span.hi source
  | .property (.shorthand id) =>
    Text.isBoundary id.span.lo source && Text.isBoundary id.span.hi source
  | _ => true

/-- The spans of an expression lie in each other, in the order of the text, and between its
characters. -/
structure Expr.WellNested (source : List Char) (e : Expr) : Prop where
  nested : Node.Nested (.expr e)
  inOrder : Node.Everywhere Node.children (·.isInOrder = true) (.expr e)
  cut : Node.Everywhere Node.children (·.isCutIn source = true) (.expr e)

end RefSugar.Syntax

namespace RefSugar.Walk

open Syntax

variable {e : Expr} {leaf : Leaf}

/-! ### Which parts are wrapped -/

def isWhole : Expr → Bool
  | .name _ | .field _ _ _ | .index _ _ _ _ | .keywordCall _ _ => true
  | .call _ link callee _ => !(link == .plain && isExplicitCallee callee)
  | .wrapped _ kind _ => kind == .instantiation
  | _ => false

/-- A step from an expression to one that is looked at in its place. -/
inductive Through : Expr → Expr → Prop
  | wrapped {span : Span} {kind : Wrapping} {inner : Expr} (h : kind ≠ .instantiation) :
    Through (.wrapped span kind inner) inner
  | element {span : Span} {items : List Item} {e : Expr} (h : .one e ∈ items) :
    Through (.array span items) e
  | value {span : Span} {properties : List Property} {key : Key} {e : Expr}
    (h : .pair key e ∈ properties) : Through (.object span properties) e
  | result {span : Span} {params : List Pattern} {e : Expr} : Through (.arrowTo span params e) e
  | arrowReturn {span place : Span} {params : List Pattern} {body : List Stmt} {e : Expr}
    (h : .ret place (some e) ∈ body) : Through (.arrow span params body) e
  | functionReturn {span place : Span} {name : Option Ident} {decorators : List Expr}
    {params : List Param} {body : List Stmt} {e : Expr} (h : .ret place (some e) ∈ body) :
    Through (.function span name (.mk decorators params body)) e

/-- A part that is reached from an expression and wrapped. -/
inductive LeafOf : Expr → Leaf → Prop
  | whole {e : Expr} (h : isWhole e = true) : LeafOf e (.whole e.span)
  | shorthand {span : Span} {properties : List Property} {id : Ident}
    (h : .shorthand id ∈ properties) : LeafOf (.object span properties) (.shorthand id)
  | through {e inner : Expr} {leaf : Leaf} (h : Through e inner) (hleaf : LeafOf inner leaf) :
    LeafOf e leaf

theorem Through.sizeOf_lt {inner : Expr} (h : Through e inner) : sizeOf inner < sizeOf e := by
  cases h with
  | wrapped | result =>
    simp only [Expr.wrapped.sizeOf_spec, Expr.arrowTo.sizeOf_spec]
    omega
  | element h | value h | arrowReturn h | functionReturn h =>
    have := List.sizeOf_lt_of_mem h
    simp at this ⊢
    omega

theorem mem_itemLeaves {items : List Item} :
    leaf ∈ itemLeaves items ↔ ∃ e, .one e ∈ items ∧ leaf ∈ leaves e := by
  rw [itemLeaves_eq, List.mem_flatMap]
  constructor
  · rintro ⟨i, hi, hleaf⟩
    cases i with
    | one e => exact ⟨e, hi, by simpa [itemLeaves] using hleaf⟩
    | hole | spread e => simp [itemLeaves] at hleaf
  · rintro ⟨e, he, hleaf⟩
    exact ⟨.one e, he, by simpa [itemLeaves] using hleaf⟩

/-- Of an object, shorthands and what the values hold are wrapped. -/
theorem mem_propertyLeaves {properties : List Property} :
    leaf ∈ propertyLeaves properties ↔
      (∃ id, .shorthand id ∈ properties ∧ leaf = .shorthand id) ∨
        ∃ key e, .pair key e ∈ properties ∧ leaf ∈ leaves e := by
  rw [propertyLeaves_eq, List.mem_flatMap]
  constructor
  · rintro ⟨p, hp, hleaf⟩
    cases p with
    | shorthand id => exact .inl ⟨id, hp, by simpa [propertyLeaves] using hleaf⟩
    | pair key e => exact .inr ⟨key, e, hp, by simpa [propertyLeaves] using hleaf⟩
    | _ => simp [propertyLeaves] at hleaf
  · rintro (⟨id, hid, rfl⟩ | ⟨key, e, he, hleaf⟩)
    · exact ⟨.shorthand id, hid, by simp [propertyLeaves]⟩
    · exact ⟨.pair key e, he, by simpa [propertyLeaves] using hleaf⟩

/-- Of a body, what the values hold that it returns is wrapped. -/
theorem mem_returnLeaves {stmts : List Stmt} :
    leaf ∈ returnLeaves stmts ↔ ∃ span e, .ret span (some e) ∈ stmts ∧ leaf ∈ leaves e := by
  rw [returnLeaves_eq, List.mem_flatMap]
  constructor
  · rintro ⟨st, hst, hleaf⟩
    cases st with
    | ret span value =>
      cases value with
      | none => simp [returnLeaves] at hleaf
      | some e => exact ⟨span, e, hst, by simpa [returnLeaves] using hleaf⟩
    | _ => simp [returnLeaves] at hleaf
  · rintro ⟨span, e, he, hleaf⟩
    exact ⟨.ret span (some e), he, by simpa [returnLeaves] using hleaf⟩

/-- One step towards a part. -/
theorem mem_leaves_step :
    leaf ∈ leaves e ↔ (isWhole e = true ∧ leaf = .whole e.span) ∨
      (∃ span properties id, e = .object span properties ∧ .shorthand id ∈ properties ∧
        leaf = .shorthand id) ∨
      ∃ inner, Through e inner ∧ leaf ∈ leaves inner := by
  constructor
  · intro h
    cases e with
    | name id | field span link object | index span link object key | keywordCall span args =>
      exact .inl ⟨rfl, by simpa [leaves] using h⟩
    | call span link callee args =>
      rw [leaves] at h
      split at h
      · cases h
      · next hcall =>
        refine .inl ⟨?_, List.mem_singleton.mp h⟩
        rw [isWhole, Bool.eq_false_iff.mpr hcall, Bool.not_false]
    | wrapped span kind inner =>
      rw [leaves] at h
      split at h
      · next hkind => exact .inl ⟨by simpa [isWhole] using hkind, List.mem_singleton.mp h⟩
      · next hkind => exact .inr (.inr ⟨inner, .wrapped hkind, h⟩)
    | array span items =>
      obtain ⟨inner, hinner, hleaf⟩ := mem_itemLeaves.mp (by simpa [leaves] using h)
      exact .inr (.inr ⟨inner, .element hinner, hleaf⟩)
    | object span properties =>
      rcases mem_propertyLeaves.mp (by simpa [leaves] using h) with
        ⟨id, hid, hleaf⟩ | ⟨key, inner, hinner, hleaf⟩
      · exact .inr (.inl ⟨span, properties, id, rfl, hid, hleaf⟩)
      · exact .inr (.inr ⟨inner, .value hinner, hleaf⟩)
    | function span name fn =>
      obtain ⟨decorators, params, body⟩ := fn
      obtain ⟨place, inner, hinner, hleaf⟩ := mem_returnLeaves.mp (by simpa [leaves] using h)
      exact .inr (.inr ⟨inner, .functionReturn hinner, hleaf⟩)
    | arrow span params body =>
      obtain ⟨place, inner, hinner, hleaf⟩ := mem_returnLeaves.mp (by simpa [leaves] using h)
      exact .inr (.inr ⟨inner, .arrowReturn hinner, hleaf⟩)
    | arrowTo span params result =>
      exact .inr (.inr ⟨result, .result, by simpa [leaves] using h⟩)
    | _ => simp [leaves] at h
  · rintro (⟨hwhole, rfl⟩ | ⟨span, properties, id, rfl, hid, rfl⟩ | ⟨inner, hstep, hleaf⟩)
    · cases e with
      | name id | field span link object | index span link object key | keywordCall span args =>
        simp [leaves]
      | call span link callee args =>
        rw [isWhole, Bool.not_eq_true'] at hwhole
        simp [leaves, hwhole]
      | wrapped span kind inner =>
        have hkind : kind = .instantiation := by simpa [isWhole] using hwhole
        simp [leaves, hkind]
      | _ => cases hwhole
    · rw [leaves, mem_propertyLeaves]
      exact .inl ⟨id, hid, rfl⟩
    · cases hstep with
      | wrapped h => simpa [leaves, h] using hleaf
      | element h =>
        rw [leaves, mem_itemLeaves]
        exact ⟨inner, h, hleaf⟩
      | @value span properties key e h =>
        rw [leaves, mem_propertyLeaves]
        exact .inr ⟨key, inner, h, hleaf⟩
      | result => simpa [leaves] using hleaf
      | arrowReturn h | functionReturn h =>
        rw [leaves, mem_returnLeaves]
        exact ⟨_, inner, h, hleaf⟩

/-- Exactly what the steps lead to is wrapped. -/
theorem mem_leaves_iff : leaf ∈ leaves e ↔ LeafOf e leaf := by
  constructor
  · intro h
    induction hsize : sizeOf e using Nat.strongRecOn generalizing e with
    | _ n ih =>
      rcases mem_leaves_step.mp h with
        ⟨hwhole, rfl⟩ | ⟨span, properties, id, rfl, hid, rfl⟩ | ⟨inner, hstep, hleaf⟩
      · exact .whole hwhole
      · exact .shorthand hid
      · exact .through hstep (ih _ (hsize ▸ hstep.sizeOf_lt) hleaf rfl)
  · intro h
    induction h with
    | whole h => exact mem_leaves_step.mpr (.inl ⟨h, rfl⟩)
    | shorthand h => exact mem_leaves_step.mpr (.inr (.inl ⟨_, _, _, rfl, h, rfl⟩))
    | through h _ ih => exact mem_leaves_step.mpr (.inr (.inr ⟨_, h, ih⟩))

/-! ### How the parts lie -/

/-- The parts lie inside a span, hold something, and stand in the order of the text. -/
structure Within (a : Span) (parts : List Leaf) : Prop where
  inside : ∀ leaf ∈ parts, a.lo ≤ leaf.span.lo ∧ leaf.span.hi ≤ a.hi
  filled : ∀ leaf ∈ parts, leaf.span.lo < leaf.span.hi
  ordered : parts.Pairwise fun x y => x.span.hi ≤ y.span.lo

section Within

variable {a b : Span} {parts : List Leaf}

theorem Within.nil (a : Span) : Within a [] := by
  constructor <;> simp

theorem Within.single {leaf : Leaf} (h : leaf.span.lo < leaf.span.hi) :
    Within leaf.span [leaf] := by
  constructor <;> simp [h]

theorem Within.mono (h : Within a parts) (hlo : b.lo ≤ a.lo) (hhi : a.hi ≤ b.hi) :
    Within b parts :=
  ⟨fun leaf hleaf =>
      ⟨Nat.le_trans hlo (h.inside leaf hleaf).1, Nat.le_trans (h.inside leaf hleaf).2 hhi⟩,
    h.filled, h.ordered⟩

/-- The parts of things that stand one behind the other. -/
theorem Within.flatMap {α : Type} {xs : List α} {leavesOf : α → List Leaf} (spans : α → List Span)
    (hinside : ∀ x ∈ xs, ∀ b ∈ spans x, a.lo ≤ b.lo ∧ b.hi ≤ a.hi)
    (hordered : Span.inOrder (xs.flatMap spans) = true)
    (hparts : ∀ x ∈ xs, leavesOf x = [] ∨ ∃ b, spans x = [b] ∧ Within b (leavesOf x)) :
    Within a (xs.flatMap leavesOf) := by
  -- each part lies inside one of the spans
  have hspan : ∀ x ∈ xs, ∀ leaf ∈ leavesOf x, ∃ b ∈ spans x,
      b.lo ≤ leaf.span.lo ∧ leaf.span.lo < leaf.span.hi ∧ leaf.span.hi ≤ b.hi := by
    intro x hx leaf hleaf
    rcases hparts x hx with hnil | ⟨b, hb, hwithin⟩
    · rw [hnil] at hleaf
      cases hleaf
    · obtain ⟨hlo, hhi⟩ := hwithin.inside leaf hleaf
      exact ⟨b, by simp [hb], hlo, hwithin.filled leaf hleaf, hhi⟩
  have hfound : ∀ leaf ∈ xs.flatMap leavesOf, ∃ b ∈ xs.flatMap spans, (a.lo ≤ b.lo ∧ b.hi ≤ a.hi) ∧
      b.lo ≤ leaf.span.lo ∧ leaf.span.lo < leaf.span.hi ∧ leaf.span.hi ≤ b.hi := by
    intro leaf hleaf
    obtain ⟨x, hx, hleaf⟩ := List.mem_flatMap.mp hleaf
    obtain ⟨b, hb, hlies⟩ := hspan x hx leaf hleaf
    exact ⟨b, List.mem_flatMap.mpr ⟨x, hx, hb⟩, hinside x hx b hb, hlies⟩
  refine ⟨fun leaf hleaf => ?_, fun leaf hleaf => ?_, ?_⟩
  · obtain ⟨b, -, hb, hlies⟩ := hfound leaf hleaf
    omega
  · obtain ⟨b, -, -, hlies⟩ := hfound leaf hleaf
    exact hlies.2.1
  · rw [Span.inOrder, decide_eq_true_eq] at hordered
    clear hfound hinside
    induction xs with
    | nil => simp
    | cons x xs ih =>
      rw [List.flatMap_cons, List.pairwise_append] at hordered ⊢
      refine ⟨?_, ih hordered.2.1 (fun y hy => hparts y (.tail _ hy))
        (fun y hy => hspan y (.tail _ hy)), fun leaf hleaf other hother => ?_⟩
      · rcases hparts x (.head _) with hnil | ⟨b, -, hwithin⟩
        · simp [hnil]
        · exact hwithin.ordered
      · obtain ⟨y, hy, hother⟩ := List.mem_flatMap.mp hother
        obtain ⟨b, hb, -, -, hhi⟩ := hspan x (.head _) leaf hleaf
        obtain ⟨c, hc, hlo, -⟩ := hspan y (.tail _ hy) other hother
        have := hordered.2.2 b hb c (List.mem_flatMap.mpr ⟨y, hy, hc⟩)
        omega

end Within

/-- The parts that a node contributes lie inside it, or inside the only span it has. -/
def LeavesLie : Node → Prop
  | .expr e => Within e.span (leaves e)
  | .item i => itemLeaves [i] = [] ∨ ∃ b, i.spans = [b] ∧ Within b (itemLeaves [i])
  | .property p => propertyLeaves [p] = [] ∨ ∃ b, p.valueSpans = [b] ∧ Within b (propertyLeaves [p])
  | .stmt st => Within st.extent (returnLeaves [st])
  | .func (.mk _ _ body) => ∀ a : Span, (∀ b ∈ body.map Stmt.extent, a.encloses b = true) →
    Within a (returnLeaves body)
  | _ => True

theorem returnLeaves_lie {a : Span} {body : List Stmt}
    (hinside : ∀ b ∈ body.map Stmt.extent, a.encloses b = true)
    (hordered : Span.inOrder (body.map Stmt.extent) = true)
    (hparts : ∀ st ∈ body, LeavesLie (.stmt st)) : Within a (returnLeaves body) := by
  rw [returnLeaves_eq]
  apply Within.flatMap (fun st => [st.extent]) _ (List.map_eq_flatMap ▸ hordered)
  · intro st hst
    exact .inr ⟨st.extent, rfl, hparts st hst⟩
  · intro st hst b hb
    obtain rfl := List.mem_singleton.mp hb
    have h := Span.encloses_iff.mp (hinside _ (List.mem_map_of_mem hst))
    omega

/-- By cases on the expression: what is wrapped lies inside it, in the order of the text. -/
theorem leaves_lie (hnested : (Node.expr e).isNested = true)
    (hinOrder : (Node.expr e).isInOrder = true)
    (hbelow : ∀ c ∈ (Node.expr e).children, c.isNested = true)
    (hparts : ∀ c ∈ (Node.expr e).children, LeavesLie c) : LeavesLie (.expr e) := by
  rw [Node.isNested, Bool.and_eq_true, decide_eq_true_eq] at hnested
  obtain ⟨-, hnested⟩ := hnested
  have hwhole {span : Span} (h : span.lo < span.hi) : Within span [.whole span] :=
    @Within.single (.whole span) h
  -- what starts with an expression and goes on behind it holds something
  have hopens {span : Span} (inner : Expr) (hinner : .expr inner ∈ (Node.expr e).children)
      (h : span.opensWith inner.span = true) : span.lo < span.hi := by
    have hends := hbelow _ hinner
    rw [Node.isNested, Bool.and_eq_true, decide_eq_true_eq] at hends
    have := Span.opensWith_iff.mp h
    omega
  rw [LeavesLie]
  cases e with
  | name id =>
    rw [leaves]
    exact hwhole (Span.isFilled_iff.mp hnested)
  | field span link object =>
    rw [leaves]
    exact hwhole (hopens object (by simp) hnested)
  | index span link object key =>
    simp only [Node.nestedExpr, Bool.and_eq_true] at hnested
    rw [leaves]
    exact hwhole (hopens object (by simp) hnested.1.1)
  | call span link callee args =>
    simp only [Node.nestedExpr, Bool.and_eq_true] at hnested
    rw [leaves]
    split
    · exact .nil _
    · exact hwhole (hopens callee (by simp) hnested.1.1)
  | keywordCall span args =>
    rw [leaves]
    exact hwhole (Span.isFilled_iff.mp hinOrder)
  | wrapped span kind inner =>
    rw [leaves]
    split
    · next hkind =>
      subst hkind
      exact hwhole (hopens inner (by simp) hnested)
    · have hinner : Within inner.span (leaves inner) := hparts (.expr inner) (by simp)
      have hholds : span.lo ≤ inner.span.lo ∧ inner.span.hi ≤ span.hi := by
        cases kind <;> simp only [Node.nestedExpr, Span.encloses_iff, Span.opensWith_iff,
          Span.holds_iff, Span.closesWith_iff] at hnested <;> omega
      exact hinner.mono hholds.1 hholds.2
  | array span items =>
    simp only [Node.nestedExpr, Bool.and_eq_true, List.all_eq_true] at hnested
    rw [leaves, itemLeaves_eq]
    refine Within.flatMap Item.spans (fun i hi b hb => ?_) hinOrder
      fun i hi => hparts (.item i) (by simp [hi])
    have h := Span.encloses_iff.mp (hnested.1 b (List.mem_flatMap.mpr ⟨i, hi, hb⟩))
    simp only [Expr.span_array]
    omega
  | object span properties =>
    simp only [Node.nestedExpr, Bool.and_eq_true, List.all_eq_true] at hnested
    rw [leaves, propertyLeaves_eq]
    refine Within.flatMap Property.valueSpans (fun p hp b hb => ?_) hinOrder
      fun p hp => hparts (.property p) (by simp [hp])
    have hspan : b ∈ p.spans := by
      cases p <;> simp_all [Property.valueSpans, Property.spans]
    have h := Span.encloses_iff.mp (hnested.1 b (List.mem_flatMap.mpr ⟨p, hp, hspan⟩))
    simp only [Expr.span_object]
    omega
  | function span name fn =>
    obtain ⟨decorators, params, body⟩ := fn
    simp only [Node.nestedExpr, Bool.and_eq_true, List.all_eq_true] at hnested
    rw [leaves]
    apply hparts (.func (.mk decorators params body)) (by simp) span
    intro b hb
    exact hnested.1 b (List.mem_append_right _ hb)
  | arrow span params body =>
    simp only [Node.nestedExpr, Bool.and_eq_true, List.all_eq_true] at hnested
    rw [leaves]
    exact returnLeaves_lie hnested.1.2 hinOrder fun st hst => hparts (.stmt st) (by simp [hst])
  | arrowTo span params result =>
    simp only [Node.nestedExpr, Bool.and_eq_true, List.all_eq_true] at hnested
    rw [leaves]
    have hresult : Within result.span (leaves result) := hparts (.expr result) (by simp)
    have hlies := Span.closesWith_iff.mp hnested.1.2
    exact hresult.mono (Nat.le_of_lt hlies.1) hlies.2
  | _ => simp [leaves, Within.nil]

/-- The parts of a node of a well-nested tree lie as they should. -/
theorem leavesLie_of_nested {n : Node}
    (h : Node.Everywhere Node.children (fun m => m.isNested = true ∧ m.isInOrder = true) n) :
    LeavesLie n := by
  induction h with
  | @mk n hhere hbelow ih =>
    cases n with
    | expr e => exact leaves_lie hhere.1 hhere.2 (fun c hc => (hbelow c hc).here.1) ih
    | item i =>
      cases i with
      | hole | spread e => exact .inl rfl
      | one e =>
        have he : Within e.span (leaves e) := ih (.expr e) (by simp [Item.expr?])
        exact .inr ⟨e.span, rfl, by simpa [itemLeaves] using he⟩
    | property p =>
      cases p with
      | shorthand id =>
        have hid : Within id.span [.shorthand id] :=
          @Within.single (.shorthand id) (Span.isFilled_iff.mp hhere.1)
        exact .inr ⟨id.span, rfl, by simpa [propertyLeaves] using hid⟩
      | pair key value =>
        have hvalue : Within value.span (leaves value) := ih (.expr value) (by simp)
        exact .inr ⟨value.span, rfl, by simpa [propertyLeaves] using hvalue⟩
      | _ => exact .inl rfl
    | stmt st =>
      cases st with
      | ret span value =>
        cases value with
        | none => simp [LeavesLie, returnLeaves, Within.nil]
        | some e =>
          have he : Within e.span (leaves e) := ih (.expr e) (by simp)
          have hspan := (Span.holdsAll_iff.mp hhere.1).1 e.span (by simp)
          rw [LeavesLie, returnLeaves, returnLeaves, List.append_nil]
          exact he.mono hspan.1 hspan.2
      | _ => simp [LeavesLie, returnLeaves, Within.nil]
    | func f =>
      obtain ⟨decorators, params, body⟩ := f
      intro a hinside
      exact returnLeaves_lie hinside hhere.2 fun st hst => ih (.stmt st) (by simp [hst])
    | _ => trivial

/-- A step leads to a part of the expression. -/
theorem Through.everywhere {P : Node → Prop} {inner : Expr} (h : Through e inner)
    (he : Node.Everywhere Node.children P (.expr e)) :
    Node.Everywhere Node.children P (.expr inner) := by
  cases h with
  | wrapped => exact he.child (by simp)
  | @element _ items _ h =>
    have hitem : Node.Everywhere Node.children P (.item (.one inner)) := he.child (by simp [h])
    exact hitem.child (by simp [Item.expr?])
  | @value _ properties key _ h =>
    have hproperty : Node.Everywhere Node.children P (.property (.pair key inner)) :=
      he.child (by simp [h])
    exact hproperty.child (by simp)
  | result => exact he.child (by simp)
  | @arrowReturn _ place params body _ h =>
    have hstmt : Node.Everywhere Node.children P (.stmt (.ret place (some inner))) :=
      he.child (by simp [h])
    exact hstmt.child (by simp)
  | @functionReturn _ place name decorators params body _ h =>
    have hfunc : Node.Everywhere Node.children P (.func (.mk decorators params body)) :=
      he.child (by simp)
    have hstmt : Node.Everywhere Node.children P (.stmt (.ret place (some inner))) :=
      hfunc.child (by simp [h])
    exact hstmt.child (by simp)

/-- The text can be cut around the parts. -/
theorem LeafOf.isCut {source : List Char} (h : LeafOf e leaf)
    (he : Node.Everywhere Node.children (·.isCutIn source = true) (.expr e)) :
    Text.isBoundary leaf.span.lo source = true ∧ Text.isBoundary leaf.span.hi source = true := by
  induction h with
  | whole => simpa [Node.isCutIn, Leaf.span] using he.here
  | @shorthand _ properties id h =>
    have hproperty : Node.isCutIn source (.property (.shorthand id)) = true :=
      (he.child (by simp [h])).here
    simpa [Node.isCutIn, Leaf.span] using hproperty
  | through h _ ih => exact ih (h.everywhere he)

end RefSugar.Walk

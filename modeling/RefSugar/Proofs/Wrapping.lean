import RefSugar.Proofs.Insertions

/-! How the wrappings of a whole walk lie. What is wrapped at a visit is what the parts of the visit
left to be wrapped, so by induction over visits no two wrappings share an end. -/
namespace RefSugar

namespace Walk

open Syntax

section Leaves

variable (s : Setting)

@[simp] theorem leavesOf_append (ps qs : List Piece) :
    leavesOf (ps ++ qs) = leavesOf ps ++ leavesOf qs :=
  List.flatMap_append

@[simp] theorem leavesOf_cons (p : Piece) (ps : List Piece) :
    leavesOf (p :: ps) = p.leaves ++ leavesOf ps :=
  List.flatMap_cons

@[simp] theorem leavesOf_nil : leavesOf [] = [] := rfl

theorem leavesOf_parts {α : Type} (visit : α → Visit) (l : List α) :
    leavesOf (l.map fun a => .part s (visit a)) = l.flatMap fun a => (visit a).leaves := by
  simp [leavesOf, List.flatMap_map, Piece.leaves]

@[simp] theorem leavesOf_values (es : List Expr) :
    leavesOf (values s es) = es.flatMap fun e => (leaves e).map Leaf.span :=
  leavesOf_parts s (.expr [] false) es

@[simp] theorem leavesOf_stmtPieces (stmts : List Stmt) :
    leavesOf (stmtPieces s stmts) = (returnLeaves stmts).map Leaf.span := by
  rw [returnLeaves_eq, List.map_flatMap]
  exact leavesOf_parts s .stmt stmts

theorem leavesOf_properties (ps : List Property) :
    leavesOf (ps.map fun p => .part s (.property p)) = (propertyLeaves ps).map Leaf.span := by
  rw [propertyLeaves_eq, List.map_flatMap]
  exact leavesOf_parts s .property ps

/-- Items that are spread are not wrapped. -/
theorem itemLeaves_sublist (items : List Item) :
    ((itemLeaves items).map Leaf.span).Sublist (leavesOf (itemPieces s items)) := by
  rw [itemPieces, leavesOf_values]
  induction items with
  | nil => exact .slnil
  | cons i items ih =>
    cases i with
    | hole => simpa [itemLeaves, List.filterMap_cons, Item.expr?] using ih
    | one e => simpa [itemLeaves, List.filterMap_cons, Item.expr?] using ih
    | spread e =>
      simp only [itemLeaves, List.filterMap_cons, Item.expr?, List.flatMap_cons]
      exact ih.trans (List.sublist_append_right _ _)

/-- What is wrapped at a visit is left to be wrapped by the rest of it. -/
theorem wrapped_sublist (v : Visit) :
    ((v.wrapped s).map Leaf.span).Sublist (leavesOf (v.rest s)) := by
  cases v with
  | expr chain settled e =>
    cases e with
    | call span link callee args =>
      simp only [Visit.wrapped, Visit.rest, leavesOf_cons]
      split
      · exact List.nil_sublist _
      · split
        · exact (itemLeaves_sublist s args).trans (List.sublist_append_right _ _)
        · exact List.nil_sublist _
    | _ => exact List.nil_sublist _
  | stmt st =>
    cases st with
    | function span name fn =>
      obtain ⟨decorators, params, body⟩ := fn
      simp only [Visit.wrapped, Visit.rest]
      split
      · simp [Piece.leaves, Visit.leaves, funcLeaves]
      · exact List.nil_sublist _
    | _ => exact List.nil_sublist _
  | attr a =>
    cases a with
    | spread e => exact List.nil_sublist _
    | named name braced value =>
      cases name with
      | qualified span space => exact List.nil_sublist _
      | plain id =>
        cases braced <;> cases value
        all_goals try exact List.nil_sublist _
        simp only [Visit.wrapped, Visit.rest]
        split
        · simp
        · exact List.nil_sublist _
  | declarator place d =>
    obtain ⟨span, binding, init⟩ := d
    cases binding <;> cases init
    all_goals try exact List.nil_sublist _
    rename_i id e
    rw [← explicit_declarator]
    cases hcallee : unwrapCallee? s (some e) with
    | some callee => simp [explicit_of_unwrapCallee hcallee]
    | none =>
      simp only [Visit.explicit, Visit.rest, hcallee]
      split
      · simp
      · exact List.nil_sublist _
  | _ => exact List.nil_sublist _

attribute [local simp] Visit.pieces Visit.outer Visit.scope? exprOuter exprScope propertyOuter
  propertyScope stmtOuter stmtScope arrowPieces Visit.rest Visit.leaves leaves propertyLeaves
  returnLeaves funcLeaves Piece.leaves

/-- What a visit leaves to be wrapped is left by its parts, a few expressions apart that are wrapped as
a whole. -/
theorem leaves_sublist (v : Visit) (hopen : ∀ chain settled e, v = .expr chain settled e →
    isClosed e = false) : v.leaves.Sublist (leavesOf (v.rest s)) := by
  cases v with
  | expr chain settled e =>
    have hopen := hopen chain settled e rfl
    cases e with
    | name id => exact .refl _
    | wrapped span kind inner =>
      have hkind : kind ≠ .instantiation := by
        rintro rfl
        simp [isClosed] at hopen
      simp [hkind]
    | array span items =>
      simpa using itemLeaves_sublist s items
    | object span properties =>
      simp [leavesOf_properties]
    | function span name fn =>
      obtain ⟨decorators, params, body⟩ := fn
      cases name <;> simp
    | arrow span params body =>
      simp
    | arrowTo span params result =>
      simp
    | field _ _ _ | index _ _ _ _ | call _ _ _ _ | keywordCall _ _ => simp [isClosed] at hopen
    | _ => exact List.nil_sublist _
  | property p =>
    cases p with
    | shorthand id => exact .refl _
    | pair key value =>
      simp
    | _ => exact List.nil_sublist _
  | func f =>
    obtain ⟨decorators, params, body⟩ := f
    simp only [Visit.leaves, funcLeaves, Visit.rest, Visit.pieces, Visit.outer, Visit.scope?,
      funcScope, Option.toList_some, List.flatMap_cons, List.flatMap_nil, List.append_nil,
      List.nil_append, leavesOf_append, leavesOf_stmtPieces]
    exact List.sublist_append_right _ _
  | stmt st =>
    cases st with
    | ret span value =>
      cases value <;> simp
    | _ => exact List.nil_sublist _
  | _ => exact List.nil_sublist _

end Leaves

section Events

variable {s : Setting}

/-- Behind the events that wrap, a visit only mentions and declares. -/
theorem rest_event {v : Visit} {ev : Event} (h : .event ev ∈ v.rest s) :
    (∃ m, ev = .mention m) ∨ ∃ place name, ev = .known place name := by
  have hpieces (hplain : v.triggered s = []) (h : .event ev ∈ v.pieces s) :
      (∃ m, ev = .mention m) ∨ ∃ place name, ev = .known place name := by
    rcases piece_event h with ⟨m, rfl, _⟩ | h | h
    · exact .inl ⟨_, rfl⟩
    · exact .inr h
    · simp [hplain] at h
  cases v with
  | expr chain settled e =>
    cases e with
    | call span link callee args => simp [Visit.rest] at h
    | _ => exact hpieces rfl h
  | stmt st =>
    cases st with
    | function span name fn => simp [Visit.rest] at h
    | _ => exact hpieces rfl h
  | attr a =>
    cases a with
    | named name braced value => simp [Visit.rest] at h
    | spread e => exact hpieces rfl h
  | declarator place d =>
    obtain ⟨span, binding, init⟩ := d
    simp only [Visit.rest] at h
    split at h
    · simp at h
    · split at h <;> simp at h
  | _ => exact hpieces rfl h

attribute [local simp] Visit.pieces Visit.outer Visit.scope? exprOuter exprScope propertyOuter
  propertyScope targetOuter targetFieldOuter mention

/-- Where names are mentioned: as expressions, as targets of assignments, and as members of objects
that are both key and value. -/
theorem mention_cases {v : Visit} {m : Mention} (hrest : .event (.mention m) ∈ v.rest s) :
    (∃ chain settled id, v = .expr chain settled (.name id) ∧
      m = { id, chain, isExempt := s.isExempt }) ∨
    (∃ chain settled span id, v = .expr chain settled (.update span (.name id)) ∧
      m = { id, isWrite := true, isExempt := s.isExempt }) ∨
    (∃ id, v = .target (.name id) ∧ m = { id, isWrite := true, isExempt := s.isExempt }) ∨
    (∃ id, v = .property (.shorthand id) ∧
      m = { id, isShorthand := true, isExempt := s.isExempt }) ∨
    ∃ id value, v = .targetField (.shorthand id value) ∧
      m = { id, isWrite := true, isShorthand := true, isExempt := s.isExempt } := by
  have hpieces : .event (.mention m) ∈ v.pieces s := by
    rw [pieces_eq]
    exact List.mem_append_right _ hrest
  obtain ⟨_, _, hid⟩ : ∃ m', .mention m = mention s m' ∧ m'.id ∈ v.mentioned := by
    rcases piece_event hpieces with h | ⟨_, _, h⟩ | h
    · exact h
    · cases h
    · have := (triggers_of_mem h).names
      simp [Event.names] at this
  unfold Visit.mentioned at hid
  split at hid
  · exact .inl ⟨_, _, _, rfl, by simpa using hpieces⟩
  · exact .inr (.inl ⟨_, _, _, _, rfl, by simpa using hpieces⟩)
  · exact .inr (.inr (.inr (.inl ⟨_, rfl, by simpa using hpieces⟩)))
  · exact .inr (.inr (.inl ⟨_, rfl, by simpa using hpieces⟩))
  · exact .inr (.inr (.inr (.inr ⟨_, _, rfl, by simpa using hpieces⟩)))
  · cases hid

/-- A name that is mentioned is not empty, and is a member of an object only where members stand. -/
theorem mention_of_rest {v : Visit} (h : Node.Nested v.node) {m : Mention}
    (hm : .event (.mention m) ∈ v.rest s) :
    m.id.span.lo < m.id.span.hi ∧ (v.isTight = true → m.isShorthand = false) := by
  have hname {id : Ident} (h : Node.Nested (.expr (.name id))) : id.span.lo < id.span.hi := by
    have hhere := h.here
    simp only [Node.isNested, Node.nestedExpr, Bool.and_eq_true, Span.isFilled_iff] at hhere
    exact hhere.2
  rcases mention_cases hm with ⟨_, _, id, rfl, rfl⟩ | ⟨_, _, _, id, rfl, rfl⟩ | ⟨id, rfl, rfl⟩ |
    ⟨id, rfl, rfl⟩ | ⟨id, _, rfl, rfl⟩
  · exact ⟨hname h, fun _ => rfl⟩
  · exact ⟨hname (h.child (by simp)), fun _ => rfl⟩
  · exact ⟨Span.isFilled_iff.mp h.here, fun _ => rfl⟩
  · exact ⟨Span.isFilled_iff.mp h.here, by simp [Visit.isTight]⟩
  · exact ⟨Span.isFilled_iff.mp h.here, by simp [Visit.isTight]⟩

/-- Nothing is inserted where a scope opens or closes. -/
theorem trace_flatMap {β : Type} {f : Event → List β} (henter : ∀ kind, f (.enter kind) = [])
    (hleave : f .leave = []) (v : Visit) : (v.trace s).flatMap f = (expand (v.pieces s)).flatMap f := by
  have hscope (S : Scope) : S.trace.flatMap f = (expand S.pieces).flatMap f := by
    simp [Scope.trace, framed, henter, hleave]
  rw [Visit.trace_eq, Visit.pieces, expand_append, List.flatMap_append, List.flatMap_append]
  cases v.scope? s with
  | none => rfl
  | some S => simp [hscope]

theorem mention_mem_trace_iff {v : Visit} {m : Mention} :
    .mention m ∈ v.trace s ↔ .mention m ∈ expand (v.pieces s) := by
  rw [Visit.trace_eq, Visit.pieces, expand_append, List.mem_append, List.mem_append]
  cases v.scope? s <;> simp [Scope.trace, framed]

theorem spansOf_rest (v : Visit) : spansOf (v.pieces s) = spansOf (v.rest s) := by
  rw [pieces_eq, spansOf_append, spansOf_events (own_wraps v).names, List.nil_append]

theorem rest_sub {v : Visit} {p : Piece} (h : p ∈ v.rest s) : p ∈ v.pieces s := by
  rw [pieces_eq]
  exact List.mem_append_right _ h

theorem expand_pieces (v : Visit) : expand (v.pieces s) = v.own s ++ expand (v.rest s) := by
  rw [pieces_eq, expand_append, expand_events]

theorem rest_silent {v : Visit} (h : Node.Nested v.node) {ev : Event} (hev : .event ev ∈ v.rest s) :
    ev.IsSilent := by
  rcases rest_event hev with ⟨m, rfl⟩ | ⟨place, name, rfl⟩
  · refine ⟨rfl, rfl, ?_⟩
    rintro _ ⟨⟩
    exact (mention_of_rest h hev).1
  · exact ⟨rfl, rfl, by simp⟩

end Events

end Walk

namespace Syntax.Node

/-- A call by keyword covers at least its keyword. Other expressions may be empty: one is put in for an
operand that is missing. -/
def coversText : Node → Bool
  | expr (.keywordCall span _) => span.isFilled
  | _ => true

def Covered (n : Node) : Prop :=
  Everywhere children (coversText · = true) n

end Syntax.Node

namespace Walk

open Syntax

/-- All that is opened, and all keys that are spelled out, stand behind the start of one of the
spans. -/
structure Begins (S : List Span) (E : List Event) : Prop where
  opens : ∀ p ∈ opensOf E, ∃ a ∈ S, a.lo < p
  keys : ∀ m, .mention m ∈ E → m.isShorthand = true → ∃ a ∈ S, a.lo < m.id.span.lo

structure Settled (s : Setting) (v : Visit) : Prop where
  woven : Woven v.spans (v.trace s) v.leaves (Calls [.part s v])
  begins : v.isTight = true → Begins v.spans (v.trace s)

section Induction

variable {s : Setting} {v : Visit}

theorem opens_of_expand {ps : List Piece} {p : Nat} (h : p ∈ opensOf (expand ps)) :
    (∃ ev, .event ev ∈ ps ∧ p ∈ ev.opens) ∨
      ∃ s v, .part s v ∈ ps ∧ p ∈ opensOf (v.trace s) := by
  obtain ⟨ev, hev, hp⟩ := List.mem_flatMap.mp h
  rcases mem_expand hev with hev | ⟨s, v, hv, hev⟩
  · exact .inl ⟨ev, hev, hp⟩
  · exact .inr ⟨s, v, hv, List.mem_flatMap.mpr ⟨ev, hev, hp⟩⟩

/-- What an expression wraps stands behind its start. -/
theorem wrapped_begins (hnested : Node.Nested v.node) (htight : v.isTight = true)
    (hparts : ∀ s' v', .part s' v' ∈ v.rest s → Settled s' v') :
    ∀ l ∈ v.wrapped s, ∃ a ∈ v.spans, a.lo < l.span.lo := by
  cases v with
  | expr chain settled e =>
    cases e with
    | call span link callee args =>
      have hargs : ∀ l ∈ itemLeaves args, span.lo < l.span.lo := by
        intro l hl
        have hleaf := (itemLeaves_sublist s args).subset (List.mem_map_of_mem hl)
        obtain ⟨p, hp, hleaf⟩ := List.mem_flatMap.mp hleaf
        obtain ⟨e, he, rfl⟩ := List.mem_map.mp hp
        obtain ⟨a, ha, hlo, _⟩ := ((hparts s _ (List.mem_cons_of_mem _ hp)).woven.leaves _ hleaf).1
        have hmem : a ∈ spansOf (itemPieces s args) := List.mem_flatMap.mpr ⟨_, hp, ha⟩
        have hencloses := hnested.here
        simp only [Visit.node, Node.isNested, Node.nestedExpr, Bool.and_eq_true, List.all_eq_true,
          Span.encloses_iff] at hencloses
        have := hencloses.2.1.2 a (by simpa using hmem)
        omega
      intro l hl
      refine ⟨span, by simp [Visit.spans, Expr.span], hargs l ?_⟩
      simp only [Visit.wrapped] at hl
      split at hl
      · cases hl
      · split at hl
        · exact hl
        · cases hl
    | _ => simp [Visit.wrapped]
  | pattern _ | target _ => simp [Visit.wrapped]
  | _ => simp [Visit.isTight] at htight

/-- What its parts open stands behind the start of the visit. -/
theorem begins_of_parts (hnested : Node.Nested v.node) (htight : v.isTight = true)
    (hheld : ∀ a ∈ spansOf (v.rest s), ∃ b ∈ v.spans, b.lo ≤ a.lo ∧ a.hi ≤ b.hi)
    (hparts : ∀ s' v', .part s' v' ∈ v.rest s → Settled s' v') : Begins v.spans (v.trace s) := by
  have hpart {s' : Setting} {v' : Visit} {p : Nat} (hv : .part s' v' ∈ v.rest s)
      (hstarts : Starts v'.spans p) (hbegins : v'.isTight = true → ∃ a ∈ v'.spans, a.lo < p) :
      ∃ a ∈ v.spans, a.lo < p := by
    cases htight' : v'.isTight with
    | true =>
      obtain ⟨a, ha, hlo⟩ := hbegins htight'
      obtain ⟨b, hb, hlo', _⟩ := hheld a (List.mem_flatMap.mpr ⟨_, hv, ha⟩)
      exact ⟨b, hb, by omega⟩
    | false =>
      obtain ⟨a, ha, hlo, _⟩ := hstarts
      obtain ⟨b, hb, hlo', _⟩ := part_enclosed hnested.here htight (rest_sub hv) htight' a ha
      exact ⟨b, hb, by omega⟩
  constructor
  · intro p hp
    rw [opensOf, trace_flatMap (fun _ => rfl) rfl, expand_pieces, ← opensOf, opensOf_append,
      (own_wraps v).opens, List.mem_append] at hp
    rcases hp with hp | hp
    · obtain ⟨_, hspan, rfl⟩ := List.mem_map.mp hp
      obtain ⟨l, hl, rfl⟩ := List.mem_map.mp hspan
      exact wrapped_begins hnested htight hparts l hl
    · rcases opens_of_expand hp with ⟨ev, hev, hp⟩ | ⟨s', v', hv, hp⟩
      · simp [(rest_silent hnested hev).1] at hp
      · exact hpart hv ((hparts s' v' hv).woven.opens p hp) fun h =>
          ((hparts s' v' hv).begins h).opens p hp
  · intro m hm hshorthand
    rw [mention_mem_trace_iff, expand_pieces, List.mem_append] at hm
    rcases hm with hm | hm
    · have := (own_wraps v).names _ hm
      simp [Event.names] at this
    · rcases mem_expand hm with hm | ⟨s', v', hv, hm⟩
      · simp [(mention_of_rest hnested hm).2 htight] at hshorthand
      · exact hpart hv ((hparts s' v' hv).woven.names m hm).1 fun h =>
          ((hparts s' v' hv).begins h).keys m hm hshorthand

theorem woven_trace {S L : List Span} {K : Span → Prop}
    (h : Woven S (v.own s ++ expand (v.rest s)) L K) : Woven S (v.trace s) L K := by
  rw [← expand_pieces] at h
  exact h.of_events (trace_flatMap (fun _ => rfl) rfl v) (trace_flatMap (fun _ => rfl) rfl v)
    (fun _ => mention_mem_trace_iff) fun _ => mark_mem_trace_iff.mpr

/-- A visit that wraps leaves nothing to be wrapped, a call apart. -/
theorem wrapped_or_leaves (v : Visit) (hopen : ∀ chain settled e, v = .expr chain settled e →
    isClosed e = false) : v.wrapped s = [] ∨ v.leaves = [] := by
  cases v with
  | expr chain settled e =>
    cases e with
    | call span link callee args => simpa [isClosed] using hopen chain settled _ rfl
    | _ => exact .inl rfl
  | stmt st =>
    cases st with
    | function span name fn => exact .inr rfl
    | _ => exact .inl rfl
  | attr a => exact .inr rfl
  | declarator place d => exact .inr rfl
  | _ => exact .inl rfl

theorem calls_rest {k : Span} (h : Calls [.part s v] k) (hnone : ∀ chain settled callee args,
    v = .expr chain settled (.call k .plain callee args) → isExplicitCallee callee = false) :
    Calls (v.rest s) k := by
  rcases calls_part.mp h with ⟨chain, settled, callee, args, hv, hexplicit⟩ | h
  · simp [hnone chain settled callee args hv] at hexplicit
  · rw [pieces_eq, calls_append] at h
    rcases h with ⟨_, _, _, _, _, h, _⟩ | h
    · exact (not_visits_events _ h).elim
    · exact h

/-- An expression that ends with a part closes its wrapping behind that. -/
theorem woven_open (hopen : ∀ chain settled e, v = .expr chain settled e → isClosed e = false)
    (h : Woven v.spans (expand (v.rest s)) (leavesOf (v.rest s)) (Calls (v.rest s))) :
    Woven v.spans (v.trace s) v.leaves (Calls [.part s v]) := by
  have hcalls : ∀ k, Calls [.part s v] k → Calls (v.rest s) k := by
    intro k hk
    refine calls_rest hk ?_
    rintro chain settled callee args rfl
    simpa [isClosed] using hopen chain settled _ rfl
  have hown := own_wraps (s := s) v
  refine (woven_trace ?_).of_calls hcalls
  rcases wrapped_or_leaves v hopen with hnone | hnone
  · rw [hnone] at hown
    refine (h.of_leaves (leaves_sublist s v hopen)).of_events ?_ ?_ ?_ ?_
    · simp [hown.opens]
    · simp [hown.closes]
    · intro m
      simp only [List.mem_append, or_iff_right_iff_imp]
      intro hm
      have := hown.names _ hm
      simp [Event.names] at this
    · exact fun a ha => List.mem_append_right _ ha
  · rw [hnone]
    exact h.wrap (wrapped_sublist s v) hown.opens hown.closes hown.marks hown.names

/-- A closed expression is wrapped as a whole, unless it is a call of `$$`. -/
theorem leaves_of_closed {e : Expr} (h : isClosed e = true) (hplain : ∀ callee args,
    e = .call e.span .plain callee args → isExplicitCallee callee = false) :
    leaves e = [.whole e.span] := by
  cases e with
  | call span link callee args =>
    have hnot : (link == .plain && isExplicitCallee callee) = false := by
      cases link with
      | plain => simpa using hplain callee args rfl
      | _ => rfl
    simp [leaves, hnot, Expr.span]
  | wrapped span kind inner =>
    cases kind with
    | instantiation => rfl
    | _ => simp [isClosed] at h
  | field _ _ _ | index _ _ _ _ | keywordCall _ _ => rfl
  | _ => simp [isClosed] at h

/-- An expression that ends with a sign of its own is not empty: the sign stands behind its first
part. -/
theorem filled_of_closed {e : Expr} (hclosed : isClosed e = true) (hnested : Node.Nested (.expr e))
    (hcovered : (Node.expr e).coversText = true) : e.span.lo < e.span.hi := by
  have hfirst {inner : Expr} (hinner : .expr inner ∈ (Node.expr e).children)
      (h : e.span.opensWith inner.span = true) : e.span.lo < e.span.hi := by
    have hle := (hnested.child hinner).here
    rw [Node.isNested, Bool.and_eq_true, decide_eq_true_eq] at hle
    have := Span.opensWith_iff.mp h
    omega
  have hhere := hnested.here
  rw [Node.isNested, Bool.and_eq_true] at hhere
  obtain ⟨_, hhere⟩ := hhere
  cases e with
  | keywordCall span args => exact Span.isFilled_iff.mp hcovered
  | field span link inner => exact hfirst (by simp) hhere
  | index span link inner key | call span link inner args =>
    simp only [Node.nestedExpr, Bool.and_eq_true] at hhere
    exact @hfirst inner (by simp) hhere.1.1
  | wrapped span kind inner =>
    cases kind with
    | instantiation => exact hfirst (by simp) hhere
    | _ => simp [isClosed] at hclosed
  | _ => simp [isClosed] at hclosed

/-- A closed expression has room for its own wrapping around those inside. -/
theorem woven_closed {chain : List Span} {settled : Bool} {e : Expr} (hclosed : isClosed e = true)
    (hnested : (Node.expr e).isNested = true) (hfilled : e.span.lo < e.span.hi)
    (hbegins : Begins [e.span] (Visit.trace s (.expr chain settled e)))
    (h : Woven (spansOf (Visit.rest s (.expr chain settled e)))
      (expand (Visit.rest s (.expr chain settled e)))
      (leavesOf (Visit.rest s (.expr chain settled e)))
      (Calls (Visit.rest s (.expr chain settled e)))) :
    Woven [e.span] (Visit.trace s (.expr chain settled e)) ((leaves e).map Leaf.span)
      (Calls [.part s (.expr chain settled e)]) := by
  have hown := own_wraps (s := s) (.expr chain settled e)
  have hinside := h.wrap (wrapped_sublist s _) hown.opens hown.closes hown.marks hown.names
  have hspans : spansOf (Visit.rest s (.expr chain settled e)) = exprInside e := by
    rw [← spansOf_rest, spansOf_exprPieces]
  rw [hspans] at hinside
  have hends {p : Nat} (hp : Ends (exprInside e) p) : p < e.span.hi := by
    obtain ⟨a, ha, _, hhi⟩ := hp
    have := exprInside_ends hnested hclosed a ha
    omega
  have htrace := woven_trace hinside
  have hwhole : Woven [e.span] (Visit.trace s (.expr chain settled e)) []
      (Calls (Visit.rest s (.expr chain settled e))) := htrace.widen (exprInside_lies hnested).held
  have hcloses : ∀ p ∈ closesOf (Visit.trace s (.expr chain settled e)), p < e.span.hi := fun p hp =>
    hends (htrace.closes p hp)
  by_cases hexplicit : ∃ callee args, e = .call e.span .plain callee args ∧
      isExplicitCallee callee = true
  · obtain ⟨callee, args, he, hexplicit⟩ := hexplicit
    have hleaves : leaves e = [] := by
      rw [he]
      simp [leaves, hexplicit]
    rw [hleaves]
    refine (hwhole.shut hfilled hcloses).of_calls fun k hk => ?_
    by_cases hself : k = e.span
    · exact .inr hself
    · refine .inl (calls_rest hk ?_)
      rintro _ _ callee args heq
      cases heq
      exact absurd rfl hself
  · have hplain : ∀ callee args, e = .call e.span .plain callee args →
        isExplicitCallee callee = false := fun callee args he =>
      Bool.eq_false_iff.mpr fun hcallee => hexplicit ⟨callee, args, he, hcallee⟩
    rw [leaves_of_closed hclosed hplain]
    refine (hwhole.whole hfilled ?_ hcloses ?_ ?_ ?_).of_calls fun k hk => ?_
    · simpa using hbegins.opens
    · simpa using hbegins.keys
    · exact fun m hm => hends (htrace.names m hm).2
    · exact fun k hk => hends (htrace.calls k hk)
    · refine calls_rest hk ?_
      rintro _ _ callee args heq
      cases heq
      exact hplain callee args rfl

/-- By induction over visits: the wrappings inside of a visit lie apart, and leave room for what may
still be wrapped around it. -/
theorem settled_visit (s : Setting) (v : Visit) (hnested : Node.Nested v.node)
    (hcovered : Node.Covered v.node) (hapart : v.spans.Pairwise Span.Apart) : Settled s v := by
  induction s, v using Visit.induct with
  | step s v ih =>
    have hlies := pieces_lie (s := s) hnested.here hapart
    have hparts : ∀ s' v', .part s' v' ∈ v.rest s → Settled s' v' := by
      intro s' v' hv
      obtain ⟨c, hc, hreach⟩ := (v.pieces_inside s s' v' (rest_sub hv)).2
      refine ih s' v' (rest_sub hv) ((hnested.child hc).reached hreach)
        ((hcovered.child hc).reached hreach) (hlies.apart.sublist ?_)
      rw [spansOf, List.flatMap_def]
      exact List.sublist_flatten_of_mem (List.mem_map.mpr ⟨_, rest_sub hv, rfl⟩)
    rw [spansOf_rest] at hlies
    have hrest := woven_pieces hlies.apart (fun ev => rest_silent hnested) fun s' v' hv =>
      (hparts s' v' hv).woven
    have hbegins (htight : v.isTight = true) :=
      begins_of_parts hnested htight hlies.held hparts
    refine ⟨?_, hbegins⟩
    by_cases hopen : ∀ chain settled e, v = .expr chain settled e → isClosed e = false
    · exact woven_open hopen (hrest.widen hlies.held)
    · simp only [not_forall, Bool.not_eq_false] at hopen
      obtain ⟨chain, settled, e, rfl, hclosed⟩ := hopen
      exact woven_closed hclosed hnested.here (filled_of_closed hclosed hnested hcovered.here)
        (hbegins rfl) hrest

end Induction

end Walk

end RefSugar

import RefSugar.Proofs.Wrapping

/-! The chain of a reference. A walk hands down to the name at the head of an expression the spans of
all expressions whose head it is, and of no others: what stands in the arguments of a call or in a
computed key starts a chain of its own. -/
namespace RefSugar

/-- The name that an expression starts from, through members, calls and what is put around it. -/
def Syntax.Expr.head? : Syntax.Expr → Option Syntax.Ident
  | .name id => some id
  | .field _ _ inner | .index _ _ inner _ | .call _ _ inner _ => inner.head?
  | .wrapped _ _ inner => inner.head?
  | _ => none

/-- The spans of the expressions from this one down to its head, outermost first and without the
head. -/
def Syntax.Expr.links : Syntax.Expr → List Syntax.Span
  | .field span _ inner | .index span _ inner _ | .call span _ inner _ | .wrapped span _ inner =>
    span :: inner.links
  | _ => []

namespace Walk

open Syntax

/-- Among the pieces stands an expression with this span, and the name is its head. -/
def Heads (ps : List Piece) (id : Ident) (a : Span) : Prop :=
  ∃ s chain settled e, Visits ps s (.expr chain settled e) ∧ e.head? = some id ∧ e.span = a

section Visits

variable {ps : List Piece} {s s' : Setting} {v v' : Visit} {m : Mention}

theorem Visits.trans (h : Visits ps s v) (h' : Visits (v.pieces s) s' v') : Visits ps s' v' := by
  induction h with
  | here h => exact .further h h'
  | further h _ ih => exact .further h (ih h')

theorem Visits.part (h : Visits ps s v) (hv : .part s' v' ∈ v.pieces s) : Visits ps s' v' :=
  h.trans (.here hv)

/-- What holds of the parts among the pieces, and with a visit of its parts, holds of all visits. -/
theorem Visits.downward {motive : Setting → Visit → Prop}
    (hroot : ∀ s v, .part s v ∈ ps → motive s v)
    (hstep : ∀ s v, Visits ps s v → motive s v → ∀ s' v', .part s' v' ∈ v.pieces s → motive s' v')
    (h : Visits ps s v) : motive s v := by
  have hall {qs : List Piece} {t : Setting} {w : Visit} (h : Visits qs t w) :
      (∀ s v, .part s v ∈ qs → Visits ps s v ∧ motive s v) → motive t w := by
    induction h with
    | here hv => exact fun hqs => (hqs _ _ hv).2
    | further hv _ ih =>
      intro hqs
      obtain ⟨hvisits, hmotive⟩ := hqs _ _ hv
      exact ih fun s' v' hv' => ⟨hvisits.part hv', hstep _ _ hvisits hmotive s' v' hv'⟩
  exact hall h fun s v hv => ⟨.here hv, hroot s v hv⟩

/-- A walk over a script keeps its setting, but for attributes that are left alone. -/
theorem Visits.setting_eq {o : Options} {text : List Char} {stmts : List Stmt}
    (h : Visits (scriptPieces o text stmts) s v) :
    ∃ b, s = { setting o text with isExempt := b } := by
  refine Visits.downward (motive := fun s _ => ∃ b, s = { setting o text with isExempt := b })
    ?_ ?_ h
  · intro s v hv
    obtain ⟨st, _, heq⟩ := List.mem_map.mp hv
    obtain ⟨rfl, rfl⟩ := Piece.part.inj heq
    exact ⟨_, rfl⟩
  · rintro s v _ ⟨_, rfl⟩ s' v' hv
    exact (v.pieces_inside _ s' v' hv).1.eq

/-- The events of a walk are those of its visits, and where scopes open and close. -/
theorem mem_expand_iff {ev : Event} (hframe : ev.isFrame = false) : ev ∈ expand ps ↔
    .event ev ∈ ps ∨ ∃ s v, Visits ps s v ∧ .event ev ∈ v.pieces s := by
  have htrace {s : Setting} {v : Visit} : ev ∈ v.trace s ↔ ev ∈ expand (v.pieces s) := by
    rw [Visit.trace_eq, Visit.pieces, expand_append, List.mem_append, List.mem_append]
    cases v.scope? s with
    | none => rfl
    | some S =>
      have henter : ev ≠ .enter S.kind := by
        rintro rfl
        cases hframe
      have hleave : ev ≠ .leave := by
        rintro rfl
        cases hframe
      simp [Scope.trace, framed, henter, hleave]
  have hvisit (s : Setting) (v : Visit) : ev ∈ v.trace s →
      .event ev ∈ v.pieces s ∨ ∃ t w, Visits (v.pieces s) t w ∧ .event ev ∈ w.pieces t := by
    induction s, v using Visit.induct with
    | step s v ih =>
      intro h
      rcases mem_expand (htrace.mp h) with h | ⟨s', v', hv, h⟩
      · exact .inl h
      · rcases ih s' v' hv h with h | ⟨t, w, hw, h⟩
        · exact .inr ⟨s', v', .here hv, h⟩
        · exact .inr ⟨t, w, .further hv hw, h⟩
  constructor
  · intro h
    rcases mem_expand h with h | ⟨s, v, hv, h⟩
    · exact .inl h
    · rcases hvisit s v h with h | ⟨t, w, hw, h⟩
      · exact .inr ⟨s, v, .here hv, h⟩
      · exact .inr ⟨t, w, .further hv hw, h⟩
  · rintro (h | ⟨s, v, hv, h⟩)
    · exact List.mem_flatMap.mpr ⟨_, h, List.mem_singleton_self ev⟩
    · induction hv with
      | @here _ s v hv =>
        have hown : ev ∈ expand (v.pieces s) :=
          List.mem_flatMap.mpr ⟨_, h, List.mem_singleton_self ev⟩
        exact List.mem_flatMap.mpr ⟨_, hv, htrace.mpr hown⟩
      | further hv _ ih => exact List.mem_flatMap.mpr ⟨_, hv, htrace.mpr (ih h)⟩

end Visits

section Chains

variable {ps : List Piece} {s s' : Setting} {chain : List Span} {settled : Bool} {e : Expr}

theorem part_mem_values {v : Visit} {es : List Expr} :
    .part s' v ∈ values s es ↔ s' = s ∧ ∃ e ∈ es, v = .expr [] false e := by
  simp only [values, List.mem_map, Piece.part.injEq]
  grind

theorem expr_not_mem_stmtPieces {stmts : List Stmt} :
    .part s' (.expr chain settled e) ∉ stmtPieces s stmts := by
  simp [stmtPieces]

attribute [local simp] Visit.pieces Visit.outer Visit.scope? itemPieces arrowPieces

theorem chain_of_key {k : Key} (h : .expr chain settled e ∈ partsOf (keyPieces s k)) :
    chain = [] := by
  cases k <;> simp [keyPieces] at h
  exact h.1

/-- An expression that is handed a chain by an expression is its head. -/
theorem chain_of_expr {chain' : List Span} {settled' : Bool} {e' : Expr}
    (h : .expr chain settled e ∈ partsOf (Visit.pieces s (.expr chain' settled' e'))) :
    chain = [] ∨ e'.head? = e.head? ∧ e'.links = e'.span :: e.links ∧
      chain = chain' ++ [e'.span] := by
  cases e' with
  | update span operand => cases operand <;> simp [exprOuter, exprScope] at h <;> grind
  | function span name fn | classDef span name cls => cases name <;> simp [exprOuter, exprScope] at h
  | field | index | call | wrapped =>
    simp [exprOuter, exprScope] at h
    grind [Expr.head?, Expr.links, Expr.span]
  | _ => simp [exprOuter, exprScope] at h <;> grind

theorem chain_of_stmt {st : Stmt} (h : .expr chain settled e ∈ partsOf (Visit.pieces s (.stmt st))) :
    chain = [] := by
  cases st with
  | function span name fn => cases fn; simp [stmtOuter, stmtScope] at h
  | resource span decls =>
    simp [stmtOuter, stmtScope] at h
    obtain ⟨⟨_, _, _⟩, _, h⟩ := h
    simp [resourceOuter] at h
    grind
  | _ => simp [stmtOuter, stmtScope] at h <;> grind

/-- What is not an expression hands no chain to its parts. -/
theorem chain_eq_nil {v : Visit} (hv : ∀ chain' settled' e', v ≠ .expr chain' settled' e')
    (h : .expr chain settled e ∈ partsOf (v.pieces s)) : chain = [] := by
  cases v with
  | expr chain' settled' e' => exact absurd rfl (hv chain' settled' e')
  | stmt st => exact chain_of_stmt h
  | declarator place d =>
    obtain ⟨span, binding, init⟩ := d
    simp [declaratorOuter] at h
    split at h <;> (try split at h) <;> simp at h <;> grind
  | func f =>
    cases f
    simp [funcScope] at h
    grind
  | cls c =>
    cases c
    simp at h
    grind
  | attr a => cases a <;> simp [attrOuter] at h <;> grind
  | member m => cases m <;> simp [memberOuter, memberScope] at h <;> grind [chain_of_key]
  | property p => cases p <;> simp [propertyOuter, propertyScope] at h <;> grind [chain_of_key]
  | pattern p => cases p <;> simp [patternOuter] at h <;> grind
  | target p => cases p <;> simp [targetOuter] at h <;> grind
  | field f => cases f <;> simp [fieldOuter] at h <;> grind [chain_of_key]
  | targetField f => cases f <;> simp [targetFieldOuter] at h <;> grind [chain_of_key]

/-- An expression that is handed a chain is the head of the expression around it. -/
theorem chain_of_part {v : Visit} (h : .part s' (.expr chain settled e) ∈ v.pieces s) :
    chain = [] ∨ ∃ chain' settled' e', v = .expr chain' settled' e' ∧ e'.head? = e.head? ∧
      e'.links = e'.span :: e.links ∧ chain = chain' ++ [e'.span] := by
  have h := mem_partsOf.mpr ⟨s', h⟩
  by_cases hv : ∃ chain' settled' e', v = .expr chain' settled' e'
  · obtain ⟨chain', settled', e', rfl⟩ := hv
    exact (chain_of_expr h).imp_right fun h => ⟨chain', settled', e', rfl, h⟩
  · exact .inl (chain_eq_nil (by simpa using hv) h)

/-- What is in the chain of an expression among the pieces is headed by what heads the expression. -/
theorem heads_of_chain {id : Ident} {a : Span}
    (hroot : ∀ s chain settled e, .part s (.expr chain settled e) ∈ ps → chain = [])
    (h : Visits ps s (.expr chain settled e)) (hhead : e.head? = some id) (ha : a ∈ chain) :
    Heads ps id a := by
  have hall {s : Setting} {v : Visit} (h : Visits ps s v) : ∀ chain settled e,
      v = .expr chain settled e → e.head? = some id → ∀ a ∈ chain, Heads ps id a := by
    refine Visits.downward (motive := fun _ v => ∀ chain settled e, v = .expr chain settled e →
      e.head? = some id → ∀ a ∈ chain, Heads ps id a) ?_ ?_ h
    · rintro s v hv chain settled e rfl _ a ha
      simp [hroot s chain settled e hv] at ha
    · rintro s v hvisits ih s' v' hv chain settled e rfl hhead a ha
      rcases chain_of_part hv with rfl | ⟨chain', settled', e', rfl, hheads, _, rfl⟩
      · cases ha
      · rw [← hheads] at hhead
        rcases List.mem_append.mp ha with ha | ha
        · exact ih chain' settled' e' rfl hhead a ha
        · exact ⟨s, chain', settled', e', hvisits, hhead, (List.mem_singleton.mp ha).symm⟩
  exact hall h chain settled e rfl hhead a ha

/-- The name at the head of an expression is visited with the expression in its chain. -/
theorem name_of_head {id : Ident} (h : Visits ps s (.expr chain settled e))
    (hhead : e.head? = some id) : ∃ chain' settled', Visits ps s (.expr chain' settled' (.name id)) ∧
      chain ⊆ chain' ∧ e.span ∈ id.span :: chain' := by
  -- one link inward; the chain only grows
  have hlink {chain : List Span} {settled b : Bool} {e inner : Expr}
      (h : Visits ps s (.expr chain settled e))
      (hpart : .part s (.expr (chain ++ [e.span]) b inner) ∈ Visit.pieces s (.expr chain settled e))
      (ih : Visits ps s (.expr (chain ++ [e.span]) b inner) →
        ∃ chain' settled', Visits ps s (.expr chain' settled' (.name id)) ∧
          chain ++ [e.span] ⊆ chain' ∧ inner.span ∈ id.span :: chain') :
      ∃ chain' settled', Visits ps s (.expr chain' settled' (.name id)) ∧
        chain ⊆ chain' ∧ e.span ∈ id.span :: chain' := by
    obtain ⟨chain', settled', hname, hsub, _⟩ := ih (h.part hpart)
    exact ⟨chain', settled', hname, fun a ha => hsub (by simp [ha]),
      List.mem_cons_of_mem _ (hsub (by simp))⟩
  fun_induction Expr.head? e generalizing chain settled with
  | case1 id' =>
    cases hhead
    exact ⟨chain, settled, h, List.Subset.refl _, by simp [Expr.span]⟩
  | case2 span link inner ih | case3 span link inner key ih | case5 span kind inner ih =>
    exact hlink h (List.mem_append_left _ (List.mem_cons_self ..)) (ih · hhead)
  | case4 span link callee args ih =>
    exact hlink h (List.mem_append_left _ (List.mem_append_right _ (List.mem_cons_self ..))) (ih · hhead)
  | case6 => cases hhead

end Chains

end Walk

end RefSugar

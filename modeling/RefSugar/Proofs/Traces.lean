import RefSugar.Proofs.Offsets
import RefSugar.Walk.Trace

/-! Events of lists of nodes are those of their members one after another, and a text that a setting
finds under a span stands between the boundaries that the span tells. -/
namespace RefSugar.Walk

open Syntax

section Lists

variable (s : Setting)

theorem traceItems_eq (items : List Item) :
    traceItems s items = items.flatMap fun i => traceItems s [i] := by
  induction items with
  | nil => simp [traceItems]
  | cons i items ih => cases i <;> simp [traceItems, ← ih]

theorem itemLeaves_eq (items : List Item) :
    itemLeaves items = items.flatMap fun i => itemLeaves [i] := by
  induction items with
  | nil => simp [itemLeaves]
  | cons i items ih => cases i <;> simp [itemLeaves, ← ih]

theorem traceExprs_eq (es : List Expr) : traceExprs s es = es.flatMap (traceExpr s [] false) := by
  induction es with
  | nil => simp [traceExprs]
  | cons e es ih => simp [traceExprs, ih]

theorem traceProperties_eq (ps : List Property) :
    traceProperties s ps = ps.flatMap fun p => traceProperties s [p] := by
  induction ps with
  | nil => simp [traceProperties]
  | cons p ps ih => cases p <;> simp [traceProperties, ← ih]

theorem propertyLeaves_eq (ps : List Property) :
    propertyLeaves ps = ps.flatMap fun p => propertyLeaves [p] := by
  induction ps with
  | nil => simp [propertyLeaves]
  | cons p ps ih => cases p <;> simp [propertyLeaves, ← ih]

theorem tracePatterns_eq (ps : List Pattern) : tracePatterns s ps = ps.flatMap (tracePattern s) := by
  induction ps with
  | nil => simp [tracePatterns]
  | cons p ps ih => simp [tracePatterns, ih]

theorem traceTargets_eq (ps : List Pattern) : traceTargets s ps = ps.flatMap (traceTarget s) := by
  induction ps with
  | nil => simp [traceTargets]
  | cons p ps ih => simp [traceTargets, ih]

theorem traceFields_eq (fields : List PatternField) :
    traceFields s fields = fields.flatMap fun f => traceFields s [f] := by
  induction fields with
  | nil => simp [traceFields]
  | cons f fields ih => cases f <;> simp [traceFields, ← ih]

theorem traceTargetFields_eq (fields : List PatternField) :
    traceTargetFields s fields = fields.flatMap fun f => traceTargetFields s [f] := by
  induction fields with
  | nil => simp [traceTargetFields]
  | cons f fields ih => cases f <;> simp [traceTargetFields, ← ih]

theorem traceParamPatterns_eq (ps : List Param) :
    traceParamPatterns s ps = ps.flatMap fun p => traceParamPatterns s [p] := by
  induction ps with
  | nil => simp [traceParamPatterns]
  | cons p ps ih => cases p; simp [traceParamPatterns, ← ih]

theorem traceParamDecorators_eq (ps : List Param) :
    traceParamDecorators s ps = ps.flatMap fun p => traceParamDecorators s [p] := by
  induction ps with
  | nil => simp [traceParamDecorators]
  | cons p ps ih => cases p; simp [traceParamDecorators, ← ih]

theorem traceParams_eq (ps : List Param) :
    traceParams s ps = ps.flatMap fun p => traceParams s [p] := by
  induction ps with
  | nil => simp [traceParams]
  | cons p ps ih => cases p; simp [traceParams, ← ih]

theorem traceMembers_eq (ms : List Member) :
    traceMembers s ms = ms.flatMap fun m => traceMembers s [m] := by
  induction ms with
  | nil => simp [traceMembers]
  | cons m ms ih => cases m <;> simp [traceMembers, ← ih]

theorem traceAttrs_eq (attrs : List Attr) :
    traceAttrs s attrs = attrs.flatMap fun a => traceAttrs s [a] := by
  induction attrs with
  | nil => simp [traceAttrs]
  | cons a attrs ih => cases a <;> simp [traceAttrs, ← ih]

theorem traceStmts_eq (stmts : List Stmt) : traceStmts s stmts = stmts.flatMap (traceStmt s) := by
  induction stmts with
  | nil => simp [traceStmts]
  | cons st stmts ih => simp [traceStmts, ih]

theorem returnLeaves_eq (stmts : List Stmt) :
    returnLeaves stmts = stmts.flatMap fun st => returnLeaves [st] := by
  induction stmts with
  | nil => simp [returnLeaves]
  | cons st stmts ih =>
    cases st with
    | ret _ value => cases value <;> simp [returnLeaves, ← ih]
    | _ => simp [returnLeaves, ← ih]

theorem traceDeclarators_eq (place : Place) (decls : List Declarator) :
    traceDeclarators s place decls = decls.flatMap fun d => traceDeclarators s place [d] := by
  induction decls with
  | nil => simp [traceDeclarators]
  | cons d decls ih => cases d; simp only [traceDeclarators, List.flatMap_cons, List.append_nil, ← ih]

theorem traceResources_eq (decls : List Declarator) :
    traceResources s decls = decls.flatMap fun d => traceResources s [d] := by
  induction decls with
  | nil => simp [traceResources]
  | cons d decls ih => cases d; simp [traceResources, ← ih]

end Lists

section Texts

variable {s : Setting} {span : Span}

theorem utf8ByteSize_ofList (t : List Char) : (String.ofList t).utf8ByteSize = Text.width t := by
  induction t with
  | nil => rfl
  | cons c t ih =>
    have hcons : String.ofList (c :: t) = String.singleton c ++ String.ofList t := by
      rw [String.singleton_eq_ofList, ← String.ofList_append]
      rfl
    rw [hcons, String.utf8ByteSize_append, String.utf8ByteSize_singleton, ih, Text.width_cons]

/-- A text that is not empty stands under its span. -/
theorem text_split (h : (s.text span).toList ≠ []) : ∃ a b,
    s.source = a ++ (s.text span).toList ++ b ∧ Text.width a = span.lo ∧
      Text.width a + Text.width (s.text span).toList = span.hi := by
  have ht : (s.text span).toList = textUnder s.source span := String.toList_ofList
  rw [ht] at h ⊢
  unfold textUnder at h ⊢
  cases hslice : Text.slice? span.lo span.hi s.source with
  | none => simp [hslice] at h
  | some t => simpa using Text.slice?_eq_some_iff.mp hslice

theorem text_size (h : (s.text span).toList ≠ []) :
    span.lo + (s.text span).utf8ByteSize = span.hi := by
  obtain ⟨a, b, _, hlo, hhi⟩ := text_split h
  have hsize := utf8ByteSize_ofList (s.text span).toList
  rw [String.ofList_toList] at hsize
  omega

/-- A sigil at the start of a span can be cut off. -/
theorem boundaries_of_front (h : (s.text span).toList.head? = some '$') :
    Text.isBoundary span.lo s.source = true ∧ Text.isBoundary (span.lo + 1) s.source = true ∧
      span.lo < span.hi := by
  obtain ⟨rest, hrest⟩ := List.head?_eq_some_iff.mp h
  obtain ⟨a, b, hsource, hlo, hhi⟩ := text_split (by simp [hrest] : (s.text span).toList ≠ [])
  rw [hrest] at hsource hhi
  refine ⟨Text.isBoundary_iff.mpr ⟨a, '$' :: rest ++ b, by simp [hsource], hlo⟩,
    Text.isBoundary_iff.mpr ⟨a ++ ['$'], rest ++ b, by simp [hsource], ?_⟩, ?_⟩
  · rw [Text.width_append, hlo]
    rfl
  · have := Char.utf8Size_pos '$'
    rw [Text.width_cons] at hhi
    omega

/-- So can one at its end. -/
theorem boundaries_of_back (h : (s.text span).toList.getLast? = some '$') :
    Text.isBoundary (span.hi - 1) s.source = true ∧ Text.isBoundary span.hi s.source = true ∧
      span.lo < span.hi := by
  obtain ⟨front, hfront⟩ := List.getLast?_eq_some_iff.mp h
  obtain ⟨a, b, hsource, hlo, hhi⟩ := text_split (by simp [hfront] : (s.text span).toList ≠ [])
  rw [hfront] at hsource hhi
  have hdollar : Text.width ['$'] = 1 := rfl
  rw [Text.width_append, hdollar] at hhi
  refine ⟨Text.isBoundary_iff.mpr ⟨a ++ front, '$' :: b, by simp [hsource], ?_⟩,
    Text.isBoundary_iff.mpr ⟨a ++ front ++ ['$'], b, by simp [hsource], ?_⟩, ?_⟩
  · rw [Text.width_append]
    omega
  · rw [Text.width_append, Text.width_append, hdollar]
    omega
  · omega

end Texts

end RefSugar.Walk

import RefSugar.Proofs.Agreement
import RefSugar.Proofs.FastPath
import RefSugar.Transform

/-! Units without any sigil, neither in their text nor in a name. Main statement: a walk over such a
unit comes to nothing, wherever the spans of its tree point, so that the transform need not look for
sigils first to leave it as it is. -/
namespace RefSugar

open Syntax

/-- The names that stand right in a node, those of attributes included. -/
def Syntax.Node.names : Node → List String
  | .expr (.name id) | .property (.shorthand id) | .property (.default id _) | .key (.name id)
  | .pattern (.name id) | .field (.shorthand id _) | .attr (.named (.plain id) _ _)
  | .stmt (.function _ id _) | .stmt (.classDef _ id _) | .stmt (.enumeration _ id _) => [id.name]
  | .expr (.function _ name _) | .expr (.classDef _ name _) => name.toList.map Ident.name
  | .attr (.named (.qualified _ space) _ _) => [space]
  | .stmt (.imports _ locals) => locals.map Ident.name
  | _ => []

namespace Walk

def Plain (name : String) : Prop :=
  '$' ∉ name.toList

instance (name : String) : Decidable (Plain name) :=
  inferInstanceAs (Decidable ('$' ∉ name.toList))

def SigilFree (n : Node) : Prop :=
  Node.Everywhere Node.children (fun m => ∀ name ∈ m.names, Plain name) n

theorem sigilFree_of_check {depth : Nat} {n : Node}
    (h : Node.check (fun m => m.names.all (Plain ·)) depth n = true) : SigilFree n := by
  refine Node.everywhere_of_reaches (fun _ _ => Node.sizeOf_lt_of_mem_children) n fun m hm => ?_
  simpa using (Node.everywhere_of_check h).of_reaches hm

section Unmarked

variable {s : Setting}

/-- What is written under a span, wherever that points, comes from the text. -/
theorem text_plain (h : '$' ∉ s.source) (span : Span) : Plain (s.text span) := by
  intro hmem
  obtain ⟨a, b, hsource, _⟩ := text_split (List.ne_nil_of_mem hmem)
  rw [hsource] at h
  exact h (List.mem_append_left b (List.mem_append_right a hmem))

theorem Plain.not_endsWithSigil {name : String} (h : Plain name) :
    Sigil.endsWithSigil name = false := by
  rw [Sigil.endsWithSigil, beq_eq_false_iff_ne]
  exact fun hlast => h (List.mem_of_getLast? hlast)

/-- A tree without sigils in its names or its text triggers nothing. -/
theorem unmarked_of_sigilFree (hsource : '$' ∉ s.source) {n : Node} (h : SigilFree n) :
    Node.Everywhere Node.children (Unmarked s) n := by
  refine Node.everywhere_of_reaches (fun _ _ => Node.sizeOf_lt_of_mem_children) n fun m hm => ?_
  have hnames := h.of_reaches hm
  -- a callee is compared by its text, all else by its name
  unfold Unmarked
  split
  · have htext := text_plain hsource
    exact ⟨fun hhead => htext _ (List.mem_of_head? hhead), (htext _).not_endsWithSigil⟩
  · exact (hnames _ List.mem_cons_self).not_endsWithSigil
  · exact (hnames _ List.mem_cons_self).not_endsWithSigil
  · exact (hnames _ List.mem_cons_self).not_endsWithSigil
  · trivial

end Unmarked

theorem start_untouched (base : Nat) (root : FrameKind) (session : Session) :
    (Run.start base root session).Untouched base session := by
  constructor <;> simp [Run.start, Scopes.root, Scopes.enter]

/-- A walk over a unit without sigils emits no edit, unwraps no name in any scope, draws no temporary
and calls no primitive. So it hands on no edits, no names and the session it was given, and a document
that it is applied to stays as it is. -/
theorem walk_sigilFree (o : Options) {source : List Char} (hsource : '$' ∉ source) :
    (∀ (session : Session) (base : Nat) (stmts : List Stmt),
      (∀ st ∈ stmts, SigilFree (.stmt st)) →
        (scriptRun o session base source stmts).Untouched base session ∧
        script o session base source stmts = { edits := {}, rootUnwraps := [], session } ∧
        ∀ filename document, Transform.splice o filename document
          (script o session base source stmts).edits = .ok (.unchanged document)) ∧
    ∀ e : Expr, SigilFree (.expr e) →
      ((seeded []).steps source (traceExpr (setting o source) [] false e)).Untouched 0 {} ∧
      expression o [] source e = { edits := {}, rootUnwraps := [], session := {} } ∧
      ∀ filename document, Transform.splice o filename document (expression o [] source e).edits =
        .ok (.unchanged document) := by
  constructor
  · intro session base stmts hfree
    have hrun : (scriptRun o session base source stmts).Untouched base session := by
      refine (start_untouched base .program session).steps source fun ev hev => ?_
      rw [traceStmts_eq] at hev
      obtain ⟨st, hst, hev⟩ := List.mem_flatMap.mp hev
      exact ordinary_of_unmarked (v := .stmt st) (unmarked_of_sigilFree hsource (hfree st hst)) ev hev
    have hscript : script o session base source stmts = { edits := {}, rootUnwraps := [], session } :=
      hrun.finish o
    exact ⟨hrun, hscript, fun filename document => by rw [hscript]; rfl⟩
  · intro e hfree
    have hrun : ((seeded []).steps source
        (traceExpr (setting o source) [] false e)).Untouched 0 {} :=
      (start_untouched 0 .expression {}).steps source
        (ordinary_of_unmarked (v := .expr [] false e) (unmarked_of_sigilFree hsource hfree))
    have hexpression : expression o [] source e = { edits := {}, rootUnwraps := [], session := {} } :=
      hrun.finish o
    exact ⟨hrun, hexpression, fun filename document => by rw [hexpression]; rfl⟩

/-- A text that is a script and an expression: calls, one of them of a declared value. -/
def plainText : List Char :=
  "f(e => \x7b let \x7b g, ...h \x7d = e?.a() \x7d)".toList

/-- A script and an expression of calls, of which nothing is edited. -/
theorem walk_sigilFree_calls :
    ∃ stmts e, parseModule .ts plainText = .ok stmts ∧ parseExpr .ts plainText = .ok e ∧
      script {} {} 0 plainText stmts = { edits := {}, rootUnwraps := [], session := {} } ∧
      expression {} [] plainText e = { edits := {}, rootUnwraps := [], session := {} } := by
  have hsource : '$' ∉ plainText := by decide +kernel
  obtain ⟨stmts, hstmts, hscript⟩ := @exists_parse .ts plainText
    (fun stmts => stmts.all fun st => Node.check (fun m => m.names.all (Plain ·)) 16 (.stmt st))
    (by decide +kernel)
  have hexpr : (parseExpr .ts plainText).toOption.any
      (fun e => Node.check (fun m => m.names.all (Plain ·)) 16 (.expr e)) = true := by
    decide +kernel
  cases he : parseExpr .ts plainText with
  | error fault => simp [he, Except.toOption] at hexpr
  | ok e =>
    have hfree : SigilFree (.expr e) :=
      @sigilFree_of_check 16 _ (by simpa [he, Except.toOption] using hexpr)
    refine ⟨stmts, e, hstmts, rfl, ?_, ((walk_sigilFree {} hsource).2 e hfree).2.1⟩
    exact ((walk_sigilFree {} hsource).1 {} 0 stmts fun st hst =>
      sigilFree_of_check (List.all_eq_true.mp hscript st hst)).2.1

end Walk

end RefSugar

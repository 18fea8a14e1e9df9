import RefSugar.Syntax.Parse
import RefSugar.Proofs.ReadMarkup
import RefSugar.Proofs.ReadModules

/-! What a parse gives is written in the text: by induction on the depth of nesting, every reader of
the grammar keeps its place, and so does a whole module. -/
namespace RefSugar.Syntax

open Text

section Grammars

variable {text : List Char} {g : Grammar}

/-- One level of the grammar keeps its place if all deeper ones do. -/
theorem step_sited (hg : g.Sited text) : Grammar.Sited text ⟨step g⟩ where
  assignment := Operators.reads_assignment hg
  unary := Operators.reads_unary hg
  leftHand := Calls.reads_leftHand hg
  member := Calls.reads_member hg (Operators.reads_primary hg)
  element := fun _ => Markup.reads_element hg
  type := Types.keeps_anyType hg
  plainType := Types.keeps_plainType hg
  typeArgs := Types.keeps_typeArgs hg
  typeParams := Types.keeps_typeParams hg
  binding := Patterns.reads_binding hg
  params := Patterns.reads_params hg
  decorators := fun _ => (Calls.reads_decorators hg).imp fun _ h e he => (h e he).2
  key := Literals.reads_key hg
  block := Statements.reads_block hg
  statement := fun _ => Modules.reads_statement hg
  moduleItem := Modules.reads_moduleItem hg

theorem readGoal_sited (depth : Nat) : Grammar.Sited text ⟨readGoal depth⟩ := by
  induction depth with
  | zero => constructor <;> intros <;> exact reads_fail
  | succ depth ih => exact step_sited ih

theorem reads_wholeModule (hg : g.Sited text) : ReadsAll text (SitedStmt text) (wholeModule g) := by
  have hitems : ReadsAll text (SitedStmt text) (collect do
      if (← token).isEof then return none
      return some (← g.moduleItem)) := by
    refine Reads.collect (reads_token.bind fun t _ => ?_)
    split
    · exact .pure (by simp)
    · exact hg.moduleItem.bind fun st hst => .pure (by simpa using hst)
  refine reads_token.bind fun _ _ => ?_
  split
  · exact keeps_advance.seq <| hitems
  · exact hitems

end Grammars

theorem start_sited (text : List Char) (m : Mode) :
    State.Sited text { token := m.settle (Lexer.first text), last := 0, arrowStart := none } :=
  ⟨Mode.settle_sited (Lexer.first_sited text), isBoundary_zero text, closes_zero text⟩

/-- What a reader gives for every grammar that keeps its place, it gives for a text. -/
theorem runReader_reads {α : Type} {P : α → Prop} {dialect : Dialect} {isModule : Bool}
    {text : List Char} {r : Grammar → Reader α} {a : α}
    (h : ∀ g : Grammar, g.Sited (withoutMark text) → Reads (withoutMark text) P (r g))
    (hrun : runReader dialect isModule text r = .ok a) : P a := by
  unfold runReader at hrun
  extract_lets cs m start at hrun
  have hcomes : Comes cs P ((r (grammarFor cs.length)).run m |>.run start) :=
    h _ (readGoal_sited _) m start (start_sited cs m)
  split at hrun
  · rename_i _ found s hfound
    obtain rfl := Except.ok.inj hrun
    rw [hfound] at hcomes
    exact hcomes.1
  · simp at hrun

/-- The statements of a module are written in its text, behind a byte order mark. -/
theorem parseModule_sited {dialect : Dialect} {text : List Char} {stmts : List Stmt}
    (h : parseModule dialect text = .ok stmts) : ∀ st ∈ stmts, SitedStmt (withoutMark text) st :=
  runReader_reads (fun _ hg => reads_wholeModule hg) h

/-- A check of what a text is read as tells that it can be read. -/
theorem exists_parse {dialect : Dialect} {text : List Char} (check : List Stmt → Bool)
    (h : (parseModule dialect text).toOption.any check = true) :
    ∃ stmts, parseModule dialect text = .ok stmts ∧ check stmts = true := by
  cases hparse : parseModule dialect text with
  | error fault => simp [hparse, Except.toOption] at h
  | ok stmts => exact ⟨stmts, rfl, by simpa [hparse, Except.toOption] using h⟩

end RefSugar.Syntax

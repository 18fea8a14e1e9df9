import RefSugar.Proofs.ReadStatements
import RefSugar.Syntax.Modules

/-! The readers of the items of a module keep their place. -/
namespace RefSugar.Syntax.Modules

variable {lo : Nat} {decorators : List Expr}

variable {text : List Char}

theorem reads_exportName : ReadsAny text (Spelled text) (exportName) := by
  refine reads_token.bind fun _ _ => ?_
  split
  · exact keeps_advance.seq <| .pure (by simp)
  · split
    · exact reads_anyName.bind fun b hb => .pure (by simpa using hb)
    · exact reads_unexpected

theorem reads_typedName {other : Reader Ident} (hother : Reads text (Spelled text) other) :
    Reads text (fun r => Spelled text r.1) (typedName other) := by
  refine reads_anyName.bind fun second hsecond => ?_
  split
  · exact .pure hsecond
  · refine reads_token.bind fun b hb => ?_
    split
    · exact .pure hsecond
    · refine hother.bind fun third hthird => reads_token.bind fun b hb => ?_
      split
      · exact hother.bind fun b hb => .pure hb
      · exact .pure hthird

theorem reads_importSpecifier : Reads text (Spelled text) (importSpecifier) := by
  refine keeps_read.seq <| reads_token.bind fun t ht =>
    reads_exportName.bind fun b hb => ?_
  split
  · refine keeps_acceptWord.bind fun _ _ => ?_
    split
    · exact reads_properName
    · exact reads_failAt ht.cuts_lo
  · have hfirst := hb _ rfl
    refine reads_token.bind fun second hsecond => ?_
    extract_lets -underBinder isTyped rest
    have hrest : ∀ found, Spelled text found.1 → Reads text (Spelled text) (rest found) := by
      rintro ⟨name, more⟩ hname
      dsimp only [rest]
      cases more with
      | false => exact .pure hname
      | true =>
        refine keeps_acceptWord.bind fun _ _ => ?_
        split
        · exact reads_properName
        · generalize (if isTyped = true then second.role else t.role) = role
          split
          · exact (reads_failAt hname.cuts_lo).fails
          · exact .pure hname
    clear_value rest
    split
    · exact (reads_typedName reads_properName).bind fun _ hfound => hrest _ hfound
    · exact hrest _ hfirst

theorem reads_importEquals (hlo : Cuts text lo) :
    Reads text (SitedStmt text) (importEquals lo) := by
  refine keeps_expect.seq <| reads_ahead.seq <|
    keeps_isAtWord.bind fun _ _ => ?_
  extract_lets -underBinder rest
  have hrest u : Reads text (SitedStmt text) (rest u) :=
    keeps_expectStatementEnd.seq <| (reads_spanFrom hlo).bind fun b hb =>
      .pure ⟨trivial, by simp⟩
  clear_value rest
  split
  · refine keeps_advance.seq <| keeps_advance.seq <|
      reads_token.bind fun _ _ => ?_
    extract_lets -underBinder more
    have hmore u : Reads text (SitedStmt text) (more u) :=
      keeps_advance.seq <| keeps_expect.seq <| hrest _
    clear_value more
    split
    · exact hmore _
    · exact reads_unexpected.fails
  · exact (Types.keeps_entityName reads_nameOr.keeps).seq <| hrest _

theorem reads_importNames {phase : Phase} :
    ReadsAll text (Spelled text) (importNames phase) := by
  unfold importNames
  extract_lets -underBinder rest
  have hrest u : ReadsAll text (Spelled text) (rest u) := by
    unfold rest
    extract_lets -underBinder more
    have hmore u : ReadsAll text (Spelled text) (more u) := .pure (by simp)
    clear_value more
    split
    · refine keeps_accept.bind fun _ _ => ?_
      split
      · exact reads_importSpecifier.commaList.bind fun names hnames =>
          keeps_expect.seq <| .pure hnames
      · exact hmore _
    · exact hmore _
  clear_value rest
  split
  · refine keeps_accept.bind fun _ _ => ?_
    split
    · exact keeps_expectWord.seq <| reads_properName.bind fun b hb =>
        .pure (by simpa using hb)
    · exact hrest _
  · exact hrest _

theorem reads_typeHead {first : Ident} (hfirst : Spelled text first) :
    ReadsAny text (Spelled text) (typeHead first) := by
  refine keeps_isAtAny.bind fun _ _ => ?_
  split
  · exact .pure (by simp)
  · refine reads_ahead.seq <| keeps_isAtReference.bind fun _ _ => ?_
    split
    · exact .pure (by simpa using hfirst)
    · refine keeps_isAtWord.bind fun _ _ => ?_
      split
      · exact reads_properName.bind fun b hb => .pure (by simpa using hb)
      · split
        · exact reads_anyName.bind fun b hb => .pure (by simpa using hb)
        · exact .pure (by simpa using hfirst)

theorem keeps_phaseHead {first : Ident} {phase : Phase} :
    Keeps text (phaseHead first phase) := by
  refine keeps_isAtAny.bind fun _ _ => ?_
  split
  · exact .pure trivial
  · refine reads_ahead.seq <| keeps_isAtReference.seq <|
      keeps_isAtWord.bind fun _ _ => ?_
    split
    · exact reads_properName.seq <| .pure trivial
    · exact .pure trivial

theorem keeps_importHead : Keeps text importHead := by
  refine keeps_isAtReference.bind fun _ _ => ?_
  split
  · exact .pure trivial
  · refine reads_properName.bind fun first hfirst => keeps_read.bind fun _ _ => ?_
    extract_lets -underBinder rest
    have hrest : ∀ u, (∀ id ∈ u, Spelled text id) → Keeps text (rest u) := by
      intro name? hname?
      unfold rest
      split
      · exact .pure trivial
      · have hname := hname? _ rfl
        refine (keeps_whenTyped keeps_isAt).bind fun _ _ => ?_
        split
        · exact .pure trivial
        · split
          · exact keeps_phaseHead
          · exact .pure trivial
    clear_value rest
    split
    · exact (reads_typeHead hfirst).bind fun name? hname? => hrest _ hname?
    · exact hrest _ (by simpa using hfirst)

theorem keeps_exportSpecifier : Keeps text exportSpecifier := by
  refine reads_exportName.bind fun b hb => ?_
  extract_lets -underBinder rest
  have hrest u : Keeps text (rest u) := by
    refine keeps_acceptWord.bind fun _ _ => ?_
    split
    · exact reads_exportName.seq <| .pure trivial
    · exact .pure trivial
  clear_value rest
  split
  · have hfirst := hb _ rfl
    refine keeps_read.seq <| reads_token.bind fun _ _ => ?_
    split
    · refine (reads_typedName reads_anyName).bind fun ⟨_, more⟩ _ => ?_
      cases more with
      | false => exact .pure trivial
      | true => exact hrest _
    · exact hrest _
  · exact hrest _

theorem reads_exportOf {decl : Stmt} (hdecl : SitedStmt text decl) :
    Reads text (SitedStmt text) (exportOf lo decl) :=
  .pure ⟨trivial, by simpa using hdecl⟩

section Grammar

variable {g : Grammar} (hg : g.Sited text)
include hg

theorem reads_attributes : ReadsAll text (SitedExpr text) (attributes g) := by
  refine reads_token.bind fun _ _ => ?_
  split
  · exact keeps_advance.seq <| (Literals.reads_object hg).bind fun b hb =>
      .pure (by simpa using hb)
  · exact .pure (by simp)

theorem reads_moduleSource :
    Reads text (fun r => ∀ e ∈ r.1, SitedExpr text e) (moduleSource g) := by
  refine reads_token.bind fun b hb => ?_
  extract_lets -underBinder rest
  have hrest u : Reads text (fun r => ∀ e ∈ r.1, SitedExpr text e) (rest u) := by
    refine reads_token.bind fun _ _ => ?_
    extract_lets -underBinder stop
    exact keeps_advance.seq <| (reads_attributes hg).bind fun found hfound =>
      keeps_expectStatementEnd.seq <| .pure hfound
  clear_value rest
  split
  · exact hrest _
  · exact reads_unexpected.fails

theorem reads_importDecl : Reads text (SitedStmt text) (importDecl g) := by
  refine reads_here.bind fun lo hlo => keeps_advance.seq <|
    reads_token.bind fun b hb => ?_
  split
  · exact (reads_moduleSource hg).seq <| (reads_spanFrom hlo).bind fun b hb =>
      .pure ⟨trivial, by simp⟩
  · refine keeps_importHead.bind fun head _ => ?_
    extract_lets -underBinder rest
    have hrest u : Reads text (SitedStmt text) (rest u) :=
      reads_importNames.bind fun names hnames => keeps_expectWord.seq <|
        (reads_moduleSource hg).seq <| (reads_spanFrom hlo).bind fun b hb =>
        .pure ⟨trivial, by simp +contextual⟩
    clear_value rest
    split
    · refine (keeps_whenTyped keeps_isAt).bind fun _ _ => ?_
      split
      · exact reads_importEquals hlo
      · refine keeps_isAtWord.bind fun _ _ => ?_
        split
        · exact hrest _
        · exact keeps_expect.seq <| hrest _
    · exact hrest _

theorem reads_exportDecorators {before : List Expr} (hbefore : ∀ e ∈ before, Sited text (.expr e)) :
    ReadsAll text (fun e => Sited text (.expr e)) (exportDecorators g before) := by
  refine keeps_isAt.bind fun _ _ => ?_
  split
  · exact .pure hbefore
  · refine reads_here.bind fun lo hlo => (hg.decorators _).bind fun found hfound => ?_
    extract_lets -underBinder rest
    have hrest u : ReadsAll text (fun e => Sited text (.expr e)) (rest u) := .pure hfound
    clear_value rest
    split
    · exact (reads_failAt hlo).fails
    · exact hrest _

/-- What is exported may start at the decorators in front of `export`. -/
theorem reads_exportDefault (hlo : Cuts text lo)
    (hdecorators : ∀ e ∈ decorators, Sited text (.expr e)) :
    Reads text (SitedStmt text) (exportDefault g lo decorators) := by
  refine reads_here.bind fun start hstart =>
    (reads_exportDecorators hg hdecorators).bind fun decorators hdecorators => ?_
  extract_lets -underBinder classStart
  have hclassStart : Cuts text classStart := by
    unfold classStart
    split
    · exact hstart
    · exact hlo
  clear_value classStart
  refine keeps_read.bind fun _ _ => ?_
  extract_lets -underBinder typescript
  refine reads_ahead.bind fun next hnext => keeps_isAtWord.bind fun _ _ => ?_
  extract_lets -underBinder rest
  have hrest u : Reads text (SitedStmt text) (rest u) := by
    refine reads_token.seq <| reads_ahead.bind fun _ _ => ?_
    split
    · exact keeps_advance.seq <|
        (Declarations.reads_interfaceTail hg hstart).seq <|
        (reads_spanFrom hlo).bind fun b hb => .pure ⟨trivial, by simp⟩
    · split
      · exact (Operators.reads_classDef hg hclassStart hdecorators).bind fun e he =>
          (reads_spanFrom hlo).bind fun b hb => .pure ⟨trivial, by simp [he.2]⟩
      · extract_lets -underBinder async more
        split
        · have hmore u : Reads text (SitedStmt text) (more u) := by
            refine (Operators.reads_functionWith hg hdecorators).bind fun ⟨name, fn, _⟩ hparts => ?_
            cases name with
            | some name =>
              exact (reads_spanFrom hlo).seq <|
                .pure ⟨hparts.1 name rfl, by simpa using hparts.2⟩
            | none =>
              refine (reads_spanFrom hlo).bind fun span hspan => .pure ⟨trivial, ?_⟩
              have hfunction : Sited text (.expr (.function ⟨start, span.hi⟩ none fn)) :=
                ⟨⟨hstart, hspan.2.cuts_hi, hspan.2.closes⟩, by simpa using hparts.2⟩
              simpa using hfunction
          clear_value more
          split
          · exact keeps_advance.seq <| hmore _
          · exact hmore _
        · exact hg.assignment.allowIn.bind fun e he => keeps_expectStatementEnd.seq <|
            (reads_spanFrom hlo).bind fun b hb => .pure ⟨trivial, by simp [he.2]⟩
  clear_value rest
  split
  · split
    · exact keeps_advance.seq <|
        (Operators.reads_classDef hg hclassStart hdecorators).bind fun e he =>
        (reads_spanFrom hlo).seq <| .pure ⟨trivial, by simp [he.2]⟩
    · split
      · exact keeps_advance.seq <| hrest _
      · exact hrest _
  · exact hrest _

theorem reads_exportList (hlo : Cuts text lo) :
    Reads text (SitedStmt text) (exportList g lo) := by
  refine keeps_accept.bind fun _ _ => ?_
  split
  · refine keeps_acceptWord.bind fun _ _ => ?_
    extract_lets -underBinder rest
    have hrest u : Reads text (SitedStmt text) (rest u) :=
      keeps_expectWord.seq <|
        (reads_moduleSource hg).bind fun ⟨attributes, stop⟩ hattributes =>
        .pure ⟨trivial, by simp +contextual [hattributes]⟩
    clear_value rest
    split
    · exact reads_exportName.seq <| hrest _
    · exact hrest _
  · refine keeps_expect.seq <| keeps_exportSpecifier.commaList.seq <|
      keeps_expect.seq <| keeps_acceptWord.bind fun _ _ => ?_
    split
    · exact (reads_moduleSource hg).bind fun ⟨attributes, _⟩ hattributes =>
        (reads_spanFrom hlo).bind fun b hb => .pure ⟨trivial, by simp +contextual [hattributes]⟩
    · exact keeps_acceptStatementEnd.seq <| (reads_spanFrom hlo).bind fun b hb =>
        .pure ⟨trivial, by simp⟩

theorem reads_typedExport (hlo : Cuts text lo) (hdecorators : ∀ e ∈ decorators, Sited text (.expr e)) :
    ReadsAny text (SitedStmt text) (typedExport g lo decorators) := by
  refine reads_here.bind fun start hstart => keeps_acceptWord.bind fun _ _ => ?_
  extract_lets -underBinder rest
  have hrest u : ReadsAny text (SitedStmt text) (rest u) := by
    refine reads_token.bind fun b hb => ?_
    extract_lets -underBinder more
    have hmore u : ReadsAny text (SitedStmt text) (more u) := by
      refine keeps_acceptWord.bind fun _ _ => ?_
      split
      · refine keeps_isAtWord.seq <| reads_ahead.bind fun b hb => ?_
        extract_lets -underBinder later
        have hlater u : ReadsAny text (SitedStmt text) (later u) :=
          reads_anyName.seq <| (reads_importEquals hlo).bind fun b hb =>
            .pure (by simpa using hb)
        clear_value later
        split
        · exact keeps_advance.seq <| hlater _
        · exact hlater _
      · refine keeps_accept.bind fun _ _ => ?_
        split
        · exact hg.expression.bind fun e he => keeps_expectStatementEnd.seq <|
            (reads_spanFrom hlo).bind fun b hb => .pure (by simpa using ⟨trivial, by simp [he.2]⟩)
        · refine keeps_acceptWord.bind fun _ _ => ?_
          split
          · exact keeps_expectWord.seq <| reads_nameOr.seq <|
              keeps_expectStatementEnd.seq <| (reads_spanFrom hlo).bind fun b hb =>
              .pure (by simpa using ⟨trivial, by simp⟩)
          · exact .pure (by simp)
    clear_value more
    split
    · refine reads_here.bind fun start hstart =>
        (Declarations.reads_ofWord hg hstart hdecorators).attempt.bind fun b hb => ?_
      split
      · have hdecl := hb _ rfl
        exact (reads_exportOf hdecl).bind fun b hb => .pure (by simpa using hb)
      · exact hmore _
    · exact hmore _
  clear_value rest
  split
  · refine (Declarations.reads_declared hg hstart hdecorators).bind fun b hb => ?_
    split
    · have hdecl := hb _ rfl
      exact (reads_exportOf hdecl).bind fun b hb => .pure (by simpa using hb)
    · exact hrest _
  · exact hrest _

theorem reads_exportDecl (hdecorators : ∀ e ∈ decorators, Sited text (.expr e)) :
    Reads text (SitedStmt text) (exportDecl g decorators) := by
  refine reads_here.bind fun lo hlo => keeps_expectWord.seq <|
    reads_token.bind fun b hb => ?_
  extract_lets -underBinder rest
  have hrest u : Reads text (SitedStmt text) (rest u) := by
    refine keeps_read.bind fun _ _ => ?_
    extract_lets -underBinder typescript more
    have hmore u : Reads text (SitedStmt text) (more u) := by
      refine (keeps_whenTyped keeps_acceptWord).bind fun _ _ => ?_
      extract_lets -underBinder later
      have hlater u : Reads text (SitedStmt text) (later u) := by
        refine (reads_exportDecorators hg hdecorators).bind fun decorators hdecorators => ?_
        split
        · exact reads_exportList hg hlo
        · refine reads_here.bind fun start hstart => reads_token.seq <|
            reads_ahead.bind fun _ _ => ?_
          split
          · exact (Statements.reads_classDecl hg hstart hdecorators).bind fun b hb =>
              reads_exportOf hb
          · split
            · exact keeps_advance.seq <|
                (Statements.reads_functionDecl hg hstart hdecorators).bind fun b hb =>
                reads_exportOf hb
            · split
              · exact (Statements.reads_functionDecl hg hstart hdecorators).bind fun b hb =>
                  reads_exportOf hb
              · split
                · exact keeps_advance.seq <| keeps_advance.seq <|
                    (Declarations.reads_enumTail hg hstart).bind fun b hb => reads_exportOf hb
                · refine Statements.keeps_atVars.bind fun _ _ => ?_
                  split
                  · exact (Statements.reads_vars hg).bind fun b hb => reads_exportOf hb
                  · exact reads_exportList hg hlo
      clear_value later
      split
      · refine keeps_acceptWord.bind fun _ _ => ?_
        split
        · exact reads_exportDefault hg hlo hdecorators
        · exact hlater _
      · exact hlater _
    clear_value more
    split
    · refine (reads_typedExport hg hlo hdecorators).bind fun b hb => ?_
      split
      · have hs := hb _ rfl
        exact .pure hs
      · exact hmore _
    · exact hmore _
  clear_value rest
  split
  · exact reads_failAtEnd.fails
  · exact hrest _

theorem reads_exprStmt (hlo : Cuts text lo) (hdecorators : ∀ e ∈ decorators, Sited text (.expr e)) :
    Reads text (SitedStmt text) (exprStmt g lo decorators) := by
  refine hg.expression.allowIn.bind fun e he => ?_
  extract_lets -underBinder rest
  have hrest u : Reads text (SitedStmt text) (rest u) :=
    Statements.reads_exprEnd hg hlo he
  clear_value rest
  split
  · have hid : Spelled text _ := he.2.here
    refine keeps_accept.bind fun _ _ => ?_
    split
    · exact (hg.statement _).bind fun body hbody => (reads_spanFrom hid.cuts_lo).bind fun b hb =>
        .pure ⟨trivial, by simp [hbody]⟩
    · refine reads_token.bind fun b hb => ?_
      split
      · exact keeps_acceptStatementEnd.seq <| (reads_spanFrom hlo).bind fun b hb =>
          .pure ⟨trivial, by simp [he.2]⟩
      · refine keeps_read.bind fun _ _ => ?_
        split
        · refine (Declarations.reads_ofName hg hid.cuts_lo hdecorators).bind fun b hb => ?_
          split
          · have hs := hb _ rfl
            exact .pure hs
          · split
            · refine keeps_acceptWord.bind fun _ _ => ?_
              split
              · exact Declarations.reads_interfaceTail hg hlo
              · exact hrest _
            · exact hrest _
        · exact hrest _
  · exact hrest _

theorem reads_typeDecl? : ReadsAny text (SitedStmt text) (typeDecl? g) := by
  refine reads_token.bind fun t ht => reads_ahead.seq <|
    keeps_read.bind fun _ _ => ?_
  split
  · exact .pure (by simp)
  · split
    · exact keeps_advance.seq <|
        (Declarations.reads_interfaceTail hg ht.cuts_lo).bind fun b hb =>
        .pure (by simpa using hb)
    · exact keeps_advance.seq <|
        (Declarations.reads_aliasTail hg ht.cuts_lo).bind fun b hb => .pure (by simpa using hb)
    · exact keeps_advance.seq <|
        (Declarations.reads_enumTail hg ht.cuts_lo).bind fun b hb => .pure (by simpa using hb)
    · exact .pure (by simp)

/-- A statement by its first word, behind its decorators. -/
theorem reads_undecorated (hlo : Cuts text lo)
    (hdecorators : ∀ e ∈ decorators, Sited text (.expr e)) {declares : Bool} :
    Reads text (SitedStmt text) (undecorated g lo decorators declares) := by
  refine ReadsAt.reads (.read_bind fun mode => .token_bind fun t ht _ => .ahead_bind fun next _ => ?_)
  split
  · exact (keeps_advance.seq <| keeps_advance.seq <|
      Declarations.reads_enumTail hg hlo).at
  · split
    · rename_i hawait
      simp only [Bool.and_eq_true] at hawait
      exact (Statements.reads_awaitUsing hg hlo).of_pre fun _ heq => heq ▸ hawait.1.1
    · refine Reads.at ?_
      extract_lets -underBinder rest
      have hrest u : Reads text (SitedStmt text) (rest u) := by
        refine (reads_typeDecl? hg).bind fun b hb => ?_
        split
        · have hs := hb _ rfl
          exact .pure hs
        · refine Statements.keeps_atVars.bind fun _ _ => ?_
          split
          · exact Statements.reads_vars hg
          · split
            · exact Statements.reads_blockStmt hg
            · exact keeps_advance.seq <| (reads_spanFrom hlo).bind fun b hb =>
                .pure ⟨trivial, by simp⟩
            · split
              · exact Statements.reads_functionDecl hg ht.cuts_lo hdecorators
              · exact Statements.reads_classDecl hg hlo hdecorators
              · exact Statements.reads_ifStmt hg ht.cuts_lo
              · exact Statements.reads_forStmt hg ht.cuts_lo
              · exact keeps_advance.seq <| (Statements.reads_test hg).bind fun e he =>
                  (hg.statement _).bind fun body hbody => (reads_spanFrom ht.cuts_lo).bind fun b hb =>
                  .pure ⟨trivial, by simp [he.2, hbody]⟩
              · exact keeps_advance.seq <| (Statements.reads_test hg).bind fun e he =>
                  (hg.statement _).bind fun body hbody => (reads_spanFrom ht.cuts_lo).bind fun b hb =>
                  .pure ⟨trivial, by simp [he.2, hbody]⟩
              · exact Statements.reads_doStmt hg ht.cuts_lo
              · exact Statements.reads_returnStmt hg ht.cuts_lo
              · exact Statements.reads_throwStmt hg ht.cuts_lo
              · exact Statements.reads_jumpStmt hlo
              · exact Statements.reads_jumpStmt hlo
              · exact keeps_advance.seq <| keeps_expectStatementEnd.seq <|
                  (reads_spanFrom hlo).bind fun b hb => .pure ⟨trivial, by simp⟩
              · exact Statements.reads_switchStmt hg ht.cuts_lo
              · exact Statements.reads_tryStmt hg ht.cuts_lo
              · exact Statements.reads_strayHandler hg
              · exact Statements.reads_strayHandler hg
              · split
                · exact keeps_advance.seq <|
                    Statements.reads_functionDecl hg ht.cuts_lo hdecorators
                · exact reads_exprStmt hg hlo hdecorators
      clear_value rest
      split
      · refine (Statements.reads_resource? hg hlo).bind fun b hb => ?_
        split
        · have hs := hb _ rfl
          exact .pure hs
        · exact hrest _
      · exact hrest _

theorem reads_importExpr? : ReadsAny text (SitedStmt text) (importExpr? g) := by
  refine reads_ahead.seq <| keeps_isAtWord.bind fun _ _ => ?_
  split
  · exact reads_here.bind fun lo hlo => hg.expression.bind fun e he =>
      keeps_acceptStatementEnd.seq <| (reads_spanFrom hlo).seq <|
      .pure (by simpa using ⟨trivial, by simp [he.2]⟩)
  · exact .pure (by simp)

theorem reads_statement {declares : Bool} :
    Reads text (SitedStmt text) (statement g declares) := by
  refine reads_here.bind fun lo hlo => (hg.decorators _).bind fun decorators hdecorators =>
    (reads_importExpr? hg).bind fun b hb => ?_
  split
  · have hs := hb _ rfl
    exact .pure hs
  · refine reads_token.bind fun _ _ => ?_
    extract_lets -underBinder rest
    have hrest u : Reads text (SitedStmt text) (rest u) :=
      reads_undecorated hg hlo hdecorators
    clear_value rest
    split
    · exact reads_fail.fails
    · exact hrest _

/-- Any item of a module. -/
theorem reads_moduleItem : Reads text (SitedStmt text) (moduleItem g) := by
  refine reads_here.bind fun lo hlo => (hg.decorators _).bind fun decorators hdecorators =>
    (reads_importExpr? hg).bind fun b hb => ?_
  split
  · have hs := hb _ rfl
    exact .pure hs
  · refine reads_token.bind fun _ _ => ?_
    split
    · exact reads_importDecl hg
    · split
      · exact reads_exportDecl hg hdecorators
      · exact reads_undecorated hg hlo hdecorators

end Grammar

end RefSugar.Syntax.Modules

import RefSugar.Proofs.ReadOperators
import RefSugar.Syntax.Declarations

/-! The readers of statements and declarations keep their place. -/
namespace RefSugar.Syntax.Statements

variable {lo : Nat} {inLoop : Bool}

variable {text : List Char}

theorem reads_statements {statement : Reader Stmt}
    (hstatement : Reads text (SitedStmt text) statement) :
    ReadsAll text (SitedStmt text) (statements statement) := by
  refine (Reads.collect (P := SitedStmt text) ?_).bind fun stmts hstmts => ?_
  · refine reads_token.bind fun _ _ => ?_
    split
    · exact .pure (by simp)
    · exact hstatement.bind fun b hb => .pure (by simpa using hb)
  · refine reads_token.bind fun _ _ => ?_
    extract_lets -underBinder rest
    have hrest u : ReadsAll text (SitedStmt text) (rest u) :=
      .pure hstmts
    clear_value rest
    split
    · exact hrest _
    · exact keeps_expect.seq <| hrest _

theorem keeps_atVars {letToo : Bool} : Keeps text (atVars letToo) := by
  refine reads_token.bind fun _ _ => ?_
  split
  · exact .pure trivial
  · exact reads_ahead.seq <| .pure trivial

theorem keeps_atLoopWord : Keeps text atLoopWord :=
  keeps_isAtWord.seq <| keeps_isAtWord.seq <| .pure trivial

theorem reads_jumpStmt (hlo : Cuts text lo) :
    Reads text (SitedStmt text) (jumpStmt lo) := by
  refine keeps_advance.seq <| keeps_acceptStatementEnd.bind fun _ _ => ?_
  extract_lets -underBinder rest
  have hrest u : Reads text (SitedStmt text) (rest u) :=
    (reads_spanFrom hlo).seq <| .pure ⟨trivial, by simp⟩
  clear_value rest
  split
  · exact hrest _
  · exact keeps_read.seq <| reads_nameOr.seq <|
      keeps_expectStatementEnd.seq <| hrest _

def LoopHead.Sited (text : List Char) : LoopHead → Prop
  | .steps start parts => (∀ s ∈ start, SitedStmt text s) ∧ ∀ e ∈ parts, SitedExpr text e
  | .over decl source _ => SitedStmt text decl ∧ SitedExpr text source
  | .into target source _ => SitedPattern text target ∧ SitedExpr text source

section Grammar

variable {g : Grammar} (hg : g.Sited text)
include hg

theorem reads_block : ReadsAll text (SitedStmt text) (block g) :=
  keeps_expect.seq <| (reads_statements (hg.statement _)).within

theorem reads_blockStmt : Reads text (SitedStmt text) (blockStmt g) :=
  reads_here.bind fun lo hlo => hg.block.bind fun stmts hstmts =>
    (reads_spanFrom hlo).bind fun b hb => .pure ⟨trivial, by simp +contextual [hstmts]⟩

/-- A declared variable ends where its value does, or its pattern. -/
theorem reads_declarator {word : VarWord} :
    Reads text (fun d => Sited text (.declarator d)) (declarator g inLoop word) := by
  have hname : Reads text (Spelled text) (if word == .var then properName else lexicalName) := by
    split
    · exact reads_properName
    · exact reads_lexicalName
  refine reads_here.bind fun lo hlo =>
    (Patterns.reads_bindingWith hg hname).bind fun target htarget => ?_
  extract_lets -underBinder isName rest
  have hrest u : Reads text (fun d => Sited text (.declarator d)) (rest u) := by
    refine (Types.keeps_annotated hg).bind fun _ _ => ?_
    extract_lets -underBinder more
    have hmore u : Reads text (fun d => Sited text (.declarator d)) (more u) := by
      unfold more
      extract_lets -underBinder later
      have hlater : ∀ u, (∀ e ∈ u, SitedExpr text e) →
          Reads text (fun d => Sited text (.declarator d)) (later u) := by
        intro init hinit
        exact (reads_spanFrom hlo).bind fun b hb =>
          .pure ⟨hb.2.2, by simp +contextual [or_imp, htarget, hinit]⟩
      clear_value later
      split
      · exact hlater _ (by simp)
      · refine keeps_accept.bind fun _ _ => ?_
        split
        · exact hg.assignment.bind fun b hb => hlater _ (by simpa using hb)
        · refine keeps_read.bind fun _ _ => ?_
          split
          · exact hlater _ (by simp)
          · exact (reads_failAt hlo).fails
    clear_value more
    split
    · exact keeps_isAtWord.seq <| keeps_isAtWord.seq <| hmore _
    · exact hmore _
  clear_value rest
  split
  · exact (keeps_whenTyped keeps_accept).seq <| hrest _
  · exact hrest _

/-- Declarations one after another; the flag tells whether a comma followed the last. -/
theorem reads_declarators {word : VarWord} :
    ReadsAll text (fun d => Sited text (.declarator d)) (declarators g inLoop word) := by
  refine (Reads.iterate (P := fun r => ∀ d ∈ r.1, Sited text (.declarator d))
    (fun r hr => keeps_isAt.bind fun _ _ => ?_) (by simp)).bind fun _ hfound => .pure hfound
  split
  · exact .pure (by simp)
  · refine (reads_declarator hg).bind fun d hd => keeps_accept.seq <| .pure ?_
    simpa [or_imp, forall_and] using ⟨hr, hd⟩

theorem keeps_skipToEnd : Keeps text (skipToEnd g) := by
  have hskipped : Keeps text (tryCatch (do let _ ← g.expression) fun _ => pure ()) :=
    Reads.tryCatch (hg.expression.seq <| .pure trivial) fun _ _ => .pure trivial
  refine hskipped.seq <| (keeps_collect ?_).seq <| .pure trivial
  refine keeps_acceptStatementEnd.bind fun _ _ => ?_
  split
  · exact .pure trivial
  · refine keeps_advance.seq <| reads_token.bind fun _ _ => ?_
    split
    · exact .pure trivial
    · exact .pure trivial
    · exact .pure trivial

theorem keeps_declaresNothing : Keeps text (declaresNothing g) := by
  refine keeps_isAtWord.seq <| keeps_isAtWord.bind fun _ _ => ?_
  split
  · exact .pure trivial
  · refine keeps_foresee ?_
    exact keeps_advance.seq <| hg.assignment.seq <| keeps_isAt

theorem reads_vars :
    Reads text (SitedStmt text) (vars g inLoop) := by
  refine reads_token.bind fun t ht => ?_
  extract_lets -underBinder word
  refine keeps_advance.seq <|
    (keeps_whenTyped (keeps_declaresNothing hg)).bind fun _ _ => ?_
  split
  · exact (reads_spanFrom ht.cuts_lo).bind fun b hb => .pure ⟨trivial, by simp⟩
  · refine (reads_declarators hg).within.bind fun decls hdecls => ?_
    extract_lets -underBinder rest
    have hrest u : Reads text (SitedStmt text) (rest u) :=
      (reads_spanFrom ht.cuts_lo).bind fun b hb =>
        .pure ⟨trivial, by simp +contextual [hdecls]⟩
    clear_value rest
    split
    · refine keeps_acceptStatementEnd.bind fun _ _ => ?_
      split
      · exact hrest _
      · exact (keeps_skipToEnd hg).seq <| hrest _
    · exact hrest _

theorem reads_resource? (hlo : Cuts text lo) :
    ReadsAny text (SitedStmt text) (resource? g lo) := by
  refine keeps_read.seq <| reads_token.bind fun b hb => reads_ahead.bind fun b hb =>
    ?_
  split
  · exact .pure (by simp)
  · exact keeps_advance.seq <|
      (reads_declarators hg).bind fun decls hdecls =>
      keeps_expectStatementEnd.seq <| (reads_spanFrom hlo).bind fun b hb =>
      .pure (by simpa using ⟨trivial, by simp +contextual [hdecls]⟩)

theorem reads_awaitUsing (hlo : Cuts text lo) :
    ReadsAt text (fun t => t.isWord "await" = true) (SitedStmt text) (awaitUsing g lo) := by
  refine (reads_wordSpan (by decide)).bind fun word hword => keeps_advance.seq <|
    (reads_resource? hg hlo).bind fun found hfound => ?_
  split
  · exact .pure (hfound _ rfl)
  · exact (Operators.reads_awaited hg hword).bind fun e he =>
      (Operators.reads_operators hg he).allowIn.bind fun e he =>
      keeps_acceptStatementEnd.seq <| (reads_spanFrom hlo).seq <|
      .pure ⟨trivial, by simpa using he.2⟩

theorem reads_functionDecl (hlo : Cuts text lo) {decorators : List Expr}
    (hdecorators : ∀ e ∈ decorators, Sited text (.expr e)) {async : Bool} :
    Reads text (SitedStmt text) (functionDecl g lo decorators async) :=
  keeps_expectWord.seq <| keeps_accept.seq <|
    reads_properName.bind fun name hname =>
    (Functions.reads_tail hg hdecorators).bind fun ⟨fn, _⟩ hfn =>
    (reads_spanFrom hlo).seq <| .pure ⟨hname, by simp [hfn]⟩

theorem reads_classDecl (hlo : Cuts text lo) {decorators : List Expr}
    (hdecorators : ∀ e ∈ decorators, Sited text (.expr e)) :
    Reads text (SitedStmt text) (classDecl g lo decorators) :=
  (Classes.reads_classWith hg hdecorators reads_lexicalName).bind fun ⟨name, cls⟩ ⟨hname, hcls⟩ =>
    (reads_spanFrom hlo).seq <| .pure ⟨trivial, by simp [hcls]⟩

theorem reads_test : Reads text (SitedExpr text) (test g) :=
  keeps_expect.seq <| hg.expression.allowIn.bind fun _ he =>
    keeps_expect.seq <| .pure he

theorem reads_ifStmt (hlo : Cuts text lo) :
    Reads text (SitedStmt text) (ifStmt g lo) := by
  refine keeps_advance.seq <| (reads_test hg).bind fun e he =>
    (hg.statement _).bind fun first hfirst => keeps_acceptWord.bind fun _ _ => ?_
  extract_lets -underBinder rest
  have hrest : ∀ u, (∀ st ∈ u, Sited text (.stmt st)) → Reads text (SitedStmt text) (rest u) := by
    intro second hsecond
    exact (reads_spanFrom hlo).bind fun b hb =>
      .pure ⟨trivial, by simp +contextual [or_imp, he.2, hfirst, hsecond]⟩
  clear_value rest
  split
  · exact (hg.statement _).bind fun b hb => hrest _ (by simpa using hb)
  · exact hrest _ (by simp)

theorem reads_doStmt (hlo : Cuts text lo) :
    Reads text (SitedStmt text) (doStmt g lo) :=
  keeps_advance.seq <| (hg.statement _).bind fun body hbody =>
    keeps_expectWord.seq <| (reads_test hg).bind fun e he =>
    keeps_acceptStatementEnd.seq <| (reads_spanFrom hlo).seq <|
    .pure ⟨trivial, by simp [he.2, hbody]⟩

theorem reads_loopParts : ReadsAll text (SitedExpr text) (loopParts g) := by
  refine keeps_accept.bind fun _ _ => ?_
  extract_lets -underBinder rest
  have hrest : ∀ u, (∀ e ∈ u, SitedExpr text e) → ReadsAll text (SitedExpr text) (rest u) := by
    intro test htest
    refine keeps_isAt.bind fun _ _ => ?_
    extract_lets -underBinder more
    have hmore : ∀ u, (∀ e ∈ u, SitedExpr text e) → ReadsAll text (SitedExpr text) (more u) := by
      intro step hstep
      exact .pure (by simp +contextual [or_imp, forall_and, htest, hstep])
    clear_value more
    split
    · exact hmore _ (by simp)
    · exact hg.expression.allowIn.bind fun b hb => hmore _ (by simpa using hb)
  clear_value rest
  split
  · exact hrest _ (by simp)
  · exact hg.expression.allowIn.bind fun e he => keeps_accept.seq <|
      hrest _ (by simpa using he)

theorem reads_loopSource : Reads text (fun r => SitedExpr text r.1) (loopSource g) := by
  refine keeps_acceptWord.bind fun _ _ => ?_
  split
  · exact hg.assignment.allowIn.bind fun b hb => .pure hb
  · exact keeps_advance.seq <| hg.expression.allowIn.bind fun b hb => .pure hb

theorem reads_headWithDecl {decl : Stmt} (hdecl : SitedStmt text decl) :
    Reads text (LoopHead.Sited text) (headWithDecl g decl) := by
  refine keeps_atLoopWord.bind fun _ _ => ?_
  split
  · exact (reads_loopSource hg).bind fun _ hsource => .pure ⟨hdecl, hsource⟩
  · exact keeps_expect.seq <| (reads_loopParts hg).bind fun _ hparts =>
      .pure ⟨List.forall_mem_singleton.mpr hdecl, hparts⟩

theorem reads_headWithExpr : Reads text (LoopHead.Sited text) (headWithExpr g) := by
  refine reads_here.bind fun lo hlo => hg.expression.within.bind fun e he =>
    reads_ahead.seq <| (keeps_whenTyped ?_).bind fun _ _ => ?_
  · exact keeps_isAtWord.seq <| .pure trivial
  split
  · refine reads_properName.bind fun name hname => (reads_spanFrom hlo).bind fun span hspan =>
      (reads_loopSource hg).bind fun _ hsource => .pure ⟨⟨trivial, ?_⟩, hsource⟩
    have htarget : SitedPattern text (.name name) := ⟨hname, by simp⟩
    have hdecl : Sited text (.declarator (.mk span (.name name) none)) :=
      ⟨hspan.2.2, by simpa using htarget⟩
    simpa using hdecl
  · refine keeps_atLoopWord.bind fun _ _ => ?_
    split
    · exact (Patterns.reads_lift (Patterns.loopTarget_gives he.2)).bind fun _ htarget =>
        (reads_loopSource hg).bind fun _ hsource => .pure ⟨htarget, hsource⟩
    · refine (reads_spanFrom hlo).seq <| keeps_expect.seq <|
        (reads_loopParts hg).bind fun _ hparts => .pure ⟨?_, hparts⟩
      exact List.forall_mem_singleton.mpr ⟨trivial, by simpa using he.2⟩

theorem reads_loopHead : Reads text (LoopHead.Sited text) (loopHead g) := by
  refine keeps_atVars.bind fun _ _ => ?_
  split
  · exact (reads_vars hg).bind fun _ hdecl => reads_headWithDecl hg hdecl
  · refine keeps_accept.bind fun _ _ => ?_
    split
    · exact (reads_loopParts hg).bind fun _ hparts => .pure ⟨by simp, hparts⟩
    · exact reads_headWithExpr hg

/-- A loop of any kind, told apart by its head. -/
theorem reads_forStmt (hlo : Cuts text lo) :
    Reads text (SitedStmt text) (forStmt g lo) := by
  refine keeps_advance.seq <| reads_here.bind fun awaitAt hawaitAt =>
    keeps_acceptWord.bind fun awaits _ => keeps_expect.seq <|
    (reads_loopHead hg).within.bind fun head hhead => keeps_expect.seq <|
    (hg.statement _).bind fun body hbody => (reads_spanFrom hlo).bind fun span _ => ?_
  extract_lets -underBinder isOf rest
  have hrest u : Reads text (SitedStmt text) (rest u) := by
    unfold rest
    clear rest
    split
    · exact .pure ⟨trivial, by
        simp +contextual [or_imp, forall_and, hhead.1, hhead.2, hbody]⟩
    · exact .pure ⟨trivial, by simpa using ⟨hhead.2.2, hhead.1, hbody⟩⟩
    · exact .pure ⟨trivial, by simpa using ⟨hhead.2.2, hhead.1, hbody⟩⟩
  clear_value rest
  split
  · exact (reads_failAt hawaitAt).fails
  · exact hrest _

theorem reads_switchCase {seen : Bool} :
    Reads text (fun r => Sited text (.stmt r.1)) (switchCase g seen) := by
  refine reads_here.bind fun lo hlo => keeps_isAtWord.bind fun isDefault _ =>
    keeps_advance.bind fun _ _ => ?_
  extract_lets -underBinder rest
  have hrest u : Reads text (fun r => Sited text (.stmt r.1)) (rest u) := by
    unfold rest
    extract_lets -underBinder more
    have hmore : ∀ u, (∀ e ∈ u, SitedExpr text e) →
        Reads text (fun r => Sited text (.stmt r.1)) (more u) := by
      intro parts hparts
      refine keeps_expect.seq <|
        (Reads.collect (P := SitedStmt text) ?_).bind fun body hbody => ?_
      · refine reads_token.bind fun t ht => ?_
        split
        · exact .pure (by simp)
        · exact (hg.statement _).bind fun b hb => .pure (by simpa using hb)
      · exact (reads_spanFrom hlo).bind fun b hb =>
          .pure ⟨trivial, by simp +contextual [or_imp, forall_and, hparts, hbody]⟩
    clear_value more
    split
    · exact hmore _ (by simp)
    · exact hg.expression.allowIn.bind fun b hb => hmore _ (by simpa using hb)
  clear_value rest
  split
  · exact reads_fail.fails
  · exact hrest _

theorem reads_switchStmt (hlo : Cuts text lo) :
    Reads text (SitedStmt text) (switchStmt g lo) := by
  refine keeps_advance.seq <| (reads_test hg).bind fun subject hsubject =>
    keeps_expect.seq <|
    (Reads.iterate (P := fun r => ∀ s ∈ r.1, SitedStmt text s) (fun r hr => ?_) (by simp)).bind
    fun _ hcases => keeps_expect.seq <| (reads_spanFrom hlo).seq <|
    .pure ⟨trivial, by simpa using ⟨hsubject.2, hcases⟩⟩
  refine keeps_isAtWord.seq <| keeps_isAtWord.bind fun _ _ => ?_
  split
  · refine (reads_switchCase hg).bind fun found hfound => .pure ?_
    simpa [or_imp, forall_and] using ⟨hr, hfound⟩
  · exact .pure (by simp)

theorem reads_handler : Reads text (SitedStmt text) (handler g) := by
  refine reads_here.bind fun lo hlo => keeps_advance.seq <|
    keeps_accept.bind fun _ _ => ?_
  extract_lets -underBinder rest
  have hrest : ∀ u, (∀ p ∈ u, Sited text (.pattern p)) → Reads text (SitedStmt text) (rest u) := by
    intro params hparams
    exact hg.block.bind fun body hbody => (reads_spanFrom hlo).bind fun b hb =>
      .pure ⟨trivial, by simp +contextual [or_imp, forall_and, hparams, hbody]⟩
  clear_value rest
  split
  · exact hg.binding.bind fun p hp => (Types.keeps_annotated hg).seq <|
      keeps_expect.seq <| hrest _ (by simpa using hp)
  · exact hrest _ (by simp)

theorem reads_tryStmt (hlo : Cuts text lo) :
    Reads text (SitedStmt text) (tryStmt g lo) := by
  refine keeps_advance.seq <| (reads_blockStmt hg).bind fun body hbody =>
    keeps_isAtWord.bind fun _ _ => ?_
  extract_lets -underBinder rest
  have hrest : ∀ u, (∀ st ∈ u, Sited text (.stmt st)) → Reads text (SitedStmt text) (rest u) := by
    intro caught hcaught
    refine keeps_acceptWord.bind fun _ _ => ?_
    extract_lets -underBinder more
    have hmore : ∀ u, (∀ st ∈ u, Sited text (.stmt st)) → Reads text (SitedStmt text) (more u) := by
      intro final hfinal
      exact (reads_spanFrom hlo).bind fun b hb =>
        .pure ⟨trivial, by simp +contextual [or_imp, forall_and, hbody, hcaught, hfinal]⟩
    clear_value more
    split
    · exact (reads_blockStmt hg).bind fun b hb => hmore _ (by simpa using hb)
    · exact hmore _ (by simp)
  clear_value rest
  split
  · exact (reads_handler hg).bind fun b hb => hrest _ (by simpa using hb)
  · exact hrest _ (by simp)

theorem reads_strayHandler : Reads text (SitedStmt text) (strayHandler g) := by
  have hhandler : Keeps text (tryCatch (do let _ ← handler g) fun _ => pure ()) :=
    Reads.tryCatch ((reads_handler hg).seq <| .pure trivial) fun _ _ => .pure trivial
  have hblock : Keeps text (tryCatch (do let _ ← g.block) fun _ => pure ()) :=
    Reads.tryCatch (hg.block.seq <| .pure trivial) fun _ _ => .pure trivial
  refine reads_tokenSpan.seq <| keeps_isAtWord.bind fun _ _ => ?_
  extract_lets -underBinder rest
  have hrest u : Reads text (SitedStmt text) (rest u) := by
    refine keeps_acceptWord.bind fun _ _ => ?_
    split
    · exact hblock.seq <| .pure ⟨trivial, by simp⟩
    · exact .pure ⟨trivial, by simp⟩
  clear_value rest
  split
  · exact hhandler.seq <| hrest _
  · exact hrest _

theorem reads_returnStmt (hlo : Cuts text lo) :
    Reads text (SitedStmt text) (returnStmt g lo) := by
  refine keeps_advance.seq <| keeps_atStatementEnd.bind fun _ _ => ?_
  extract_lets -underBinder rest
  have hrest : ∀ u, (∀ e ∈ u, SitedExpr text e) → Reads text (SitedStmt text) (rest u) := by
    intro value hvalue
    exact keeps_expectStatementEnd.seq <| (reads_spanFrom hlo).bind fun b hb =>
      .pure ⟨trivial, by simp +contextual [hvalue]⟩
  clear_value rest
  split
  · exact hrest _ (by simp)
  · exact hg.expression.allowIn.bind fun b hb => hrest _ (by simpa using hb)

theorem reads_throwStmt (hlo : Cuts text lo) :
    Reads text (SitedStmt text) (throwStmt g lo) := by
  refine keeps_advance.seq <| reads_token.bind fun b hb => ?_
  extract_lets -underBinder rest
  have hrest u : Reads text (SitedStmt text) (rest u) :=
    hg.expression.allowIn.bind fun e he => keeps_expectStatementEnd.seq <|
      (reads_spanFrom hlo).seq <| .pure ⟨trivial, by simp [he.2]⟩
  clear_value rest
  split
  · exact reads_fail.fails
  · exact hrest _

theorem reads_exprEnd (hlo : Cuts text lo) {e : Expr} (he : SitedExpr text e) :
    Reads text (SitedStmt text) (exprEnd g lo e) := by
  refine keeps_acceptStatementEnd.bind fun _ _ => ?_
  split
  · exact (reads_spanFrom hlo).bind fun b hb => .pure ⟨trivial, by simp [he.2]⟩
  · refine reads_token.bind fun b hb => ?_
    split
    · exact (Operators.reads_operators hg he).bind fun e he =>
        (reads_spanFrom hlo).seq <| .pure ⟨trivial, by simp [he.2]⟩
    · exact reads_fail

end Grammar

end RefSugar.Syntax.Statements

namespace RefSugar.Syntax.Declarations

variable {lo : Nat} {decorators : List Expr}

variable {text : List Char}

section Grammar

variable {g : Grammar} (hg : g.Sited text)
include hg

theorem reads_enumMember : ReadsAny text (SitedExpr text) (enumMember g) := by
  refine reads_token.bind fun t ht => ?_
  extract_lets -underBinder rest
  have hrest u : ReadsAny text (SitedExpr text) (rest u) := by
    refine keeps_accept.bind fun _ _ => ?_
    split
    · exact hg.assignment.bind fun b hb => .pure (by simpa using hb)
    · refine keeps_isAtAny.bind fun _ _ => ?_
      extract_lets -underBinder more
      have hmore u : ReadsAny text (SitedExpr text) (more u) := .pure (by simp)
      clear_value more
      split
      · exact hmore _
      · -- what stands there is passed over as if it were a comma
        have hcomma : Keeps text (do let t ← token; retake (.punct ",") ⟨t.hi, t.rest⟩) :=
          ReadsAt.reads (.token_bind fun t ht _ => keeps_retake fun t' _ heq => by
            subst heq
            exact ⟨ht.stop, ht.closes, .inl rfl⟩)
        exact hcomma.seq <| hmore _
  clear_value rest
  split
  · exact keeps_advance.seq <| hrest _
  · refine keeps_accept.bind fun _ _ => ?_
    split
    · exact hg.expression.seq <| keeps_expect.seq <| hrest _
    · exact reads_anyName.seq <| hrest _

theorem reads_enumTail (hlo : Cuts text lo) :
    Reads text (SitedStmt text) (enumTail g lo) := by
  refine reads_anyName.seq <| keeps_expect.seq <|
    (Reads.collect (P := fun a => ∀ e ∈ a, SitedExpr text e) ?_).bind fun values hvalues => ?_
  · refine keeps_isAt.bind fun _ _ => ?_
    split
    · exact .pure (by simp)
    · exact (reads_enumMember hg).bind fun value hvalue =>
        keeps_accept.seq <| .pure (by simpa using hvalue)
  · refine keeps_expect.seq <| (reads_spanFrom hlo).seq <| .pure ⟨trivial, ?_⟩
    simpa using fun e he => (hvalues _ he e rfl).2

theorem reads_interfaceTail (hlo : Cuts text lo) :
    Reads text (SitedStmt text) (interfaceTail g lo) := by
  refine reads_anyName.seq <| (Types.keeps_optionalTypeParams hg).seq <|
    keeps_acceptWord.bind fun _ _ => ?_
  extract_lets -underBinder rest
  have hrest u : Reads text (SitedStmt text) (rest u) := by
    refine keeps_isAtWord.bind fun _ _ => ?_
    extract_lets -underBinder more
    have hmore u : Reads text (SitedStmt text) (more u) :=
      (Types.keeps_typeMembers hg).inTypes.seq <|
        (reads_spanFrom hlo).seq <| .pure ⟨trivial, by simp⟩
    clear_value more
    split
    · refine (keeps_collect ?_).bind fun _ _ => ?_
      · refine reads_token.bind fun _ _ => ?_
        split
        · exact .pure trivial
        · exact keeps_advance.seq <| .pure trivial
      · exact hmore _
    · exact hmore _
  clear_value rest
  split
  · exact (Classes.reads_heritageList hg).seq <| hrest _
  · exact hrest _

theorem reads_aliasTail (hlo : Cuts text lo) :
    Reads text (SitedStmt text) (aliasTail g lo) := by
  refine reads_anyName.seq <| (Types.keeps_optionalTypeParams hg).seq <|
    (Reads.inTypes (P := fun _ => True) ?_).bind fun _ _ => ?_
  · refine keeps_accept.bind fun _ _ => ?_
    extract_lets -underBinder rest
    have hrest u : Keeps text (rest u) := hg.type
    clear_value rest
    split
    · exact hrest _
    · exact reads_unexpected.fails
  · exact keeps_expectStatementEnd.seq <| (reads_spanFrom hlo).seq <|
      .pure ⟨trivial, by simp⟩

theorem reads_namespaceBlock : ReadsAll text (SitedStmt text) (namespaceBlock g) :=
  keeps_expect.seq <| (Statements.reads_statements hg.moduleItem).within

theorem reads_namespaceTail (hlo : Cuts text lo) :
    Reads text (SitedStmt text) (namespaceTail g lo) := by
  refine reads_anyName.seq <|
    (Reads.collect (P := Spelled text) ?_).bind fun _ _ => ?_
  · refine keeps_accept.bind fun _ _ => ?_
    split
    · exact reads_anyName.bind fun b hb => .pure (by simpa using hb)
    · exact .pure (by simp)
  · exact (reads_namespaceBlock hg).bind fun body hbody =>
      (reads_spanFrom hlo).bind fun b hb => .pure ⟨trivial, by simp +contextual [hbody]⟩

theorem reads_ambientModule (hlo : Cuts text lo) :
    Reads text (SitedStmt text) (ambientModule g lo) := by
  refine reads_token.bind fun t ht => ?_
  extract_lets -underBinder rest
  have hrest u : Reads text (SitedStmt text) (rest u) := by
    refine keeps_advance.seq <| keeps_isAt.bind fun _ _ => ?_
    extract_lets -underBinder more
    have hmore : ∀ u, (∀ st ∈ u, Sited text (.stmt st)) → Reads text (SitedStmt text) (more u) := by
      intro body hbody
      exact (reads_spanFrom hlo).bind fun b hb => .pure ⟨trivial, by simp +contextual [hbody]⟩
    clear_value more
    split
    · exact (reads_namespaceBlock hg).bind fun body hbody => hmore _ hbody
    · exact keeps_expectStatementEnd.seq <| hmore _ (by simp)
  clear_value rest
  split
  · exact hrest _
  · exact reads_unexpected.fails

/-- A declaration by its word, which may be pending. -/
theorem reads_ofWord (hlo : Cuts text lo) (hdecorators : ∀ e ∈ decorators, Sited text (.expr e))
    {word : String} {pending : Bool} :
    ReadsAny text (SitedStmt text) (ofWord g lo decorators word pending) := by
  unfold ofWord
  extract_lets -underBinder step
  have hstep : Keeps text step := by
    unfold step
    split
    · exact keeps_advance
    · exact .pure trivial
  clear_value step
  split
  · refine reads_token.bind fun t ht => ?_
    split
    · exact hstep.seq <| (Statements.reads_classDecl hg hlo hdecorators).bind fun b hb =>
        .pure (by simpa using hb)
    · exact .pure (by simp)
  · refine keeps_isAtReference.bind fun _ _ => ?_
    split
    · exact hstep.seq <| (reads_enumTail hg hlo).bind fun b hb =>
        .pure (by simpa using hb)
    · exact .pure (by simp)
  · refine keeps_isAtReference.bind fun _ _ => ?_
    split
    · exact hstep.seq <| (reads_interfaceTail hg hlo).bind fun b hb =>
        .pure (by simpa using hb)
    · exact .pure (by simp)
  · refine reads_token.bind fun b hb => ?_
    split
    · exact .pure (by simp)
    · refine hstep.seq <| keeps_checkToken.seq <| reads_token.bind fun _ _ =>
        ?_
      extract_lets -underBinder rest
      have hrest u : ReadsAny text (SitedStmt text) (rest u) := by
        unfold rest
        split
        · exact (reads_ambientModule hg hlo).bind fun b hb => .pure (by simpa using hb)
        · refine keeps_isAtReference.bind fun _ _ => ?_
          split
          · exact (reads_namespaceTail hg hlo).bind fun b hb => .pure (by simpa using hb)
          · exact .pure (by simp)
      clear_value rest
      split
      · exact reads_failAtEnd.fails
      · exact hrest _
  · refine keeps_isAtReference.bind fun _ _ => ?_
    split
    · exact hstep.seq <| (reads_namespaceTail hg hlo).bind fun b hb =>
        .pure (by simpa using hb)
    · exact .pure (by simp)
  · refine reads_token.bind fun b hb => keeps_isAtReference.bind fun _ _ => ?_
    split
    · exact hstep.seq <| (reads_aliasTail hg hlo).bind fun b hb =>
        .pure (by simpa using hb)
    · exact .pure (by simp)
  · exact .pure (by simp)

theorem reads_declared (hlo : Cuts text lo) (hdecorators : ∀ e ∈ decorators, Sited text (.expr e)) :
    ReadsAny text (SitedStmt text) (declared g lo decorators) := by
  refine Reads.within ?_
  refine reads_token.seq <| reads_ahead.bind fun _ _ => ?_
  split
  · exact (Statements.reads_functionDecl hg hlo hdecorators).bind fun b hb =>
      .pure (by simpa using hb)
  · split
    · exact keeps_advance.seq <|
        (Statements.reads_functionDecl hg hlo hdecorators).bind fun b hb =>
        .pure (by simpa using hb)
    · split
      · exact (Statements.reads_classDecl hg hlo hdecorators).bind fun b hb =>
          .pure (by simpa using hb)
      · split
        · exact keeps_advance.seq <| keeps_advance.seq <|
            (reads_enumTail hg hlo).bind fun b hb => .pure (by simpa using hb)
        · split
          · refine (Statements.reads_vars hg).bind fun b hb => ?_
            split
            · exact .pure (by simpa using ⟨trivial, hb.all_parts⟩)
            · exact .pure (by simpa using hb)
          · split
            · exact (reads_ambientModule hg hlo).bind fun b hb => .pure (by simpa using hb)
            · split
              · exact reads_ofWord hg hlo hdecorators
              · exact .pure (by simp)

theorem reads_ofName (hlo : Cuts text lo) (hdecorators : ∀ e ∈ decorators, Sited text (.expr e))
    {word : String} :
    ReadsAny text (SitedStmt text) (ofName g lo decorators word) := by
  unfold ofName
  split
  · exact reads_declared hg hlo hdecorators
  · refine keeps_isAt.bind fun _ _ => ?_
    split
    · exact (reads_namespaceBlock hg).bind fun body hbody =>
        (reads_spanFrom hlo).bind fun b hb =>
        .pure (by simpa using ⟨trivial, by simp +contextual [hbody]⟩)
    · exact .pure (by simp)
  · exact reads_ofWord hg hlo hdecorators

end Grammar

end RefSugar.Syntax.Declarations

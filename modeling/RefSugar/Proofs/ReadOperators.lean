import RefSugar.Proofs.ReadClasses
import RefSugar.Syntax.Operators

/-! The readers of operators and of everything up to assignments keep their place. -/
namespace RefSugar.Syntax.Operators

variable {lo : Nat} {mayArrow : Bool}

variable {text : List Char}

theorem sited_missing : Sited text (.expr (missing lo)) :=
  sited_compound (.inr (.inl rfl)) (by simp)

/-- An angle bracket that stood alone is scanned again from where it starts. -/
theorem keeps_rejoin : Keeps text rejoin := by
  refine ReadsAt.reads (.token_bind fun t ht _ => .read_bind fun m => ?_)
  split
  · refine keeps_rescan fun t' _ heq => ?_
    subst heq
    exact ⟨Lexer.scan_scans false t'.start t'.text, Lexer.scan_completes false t'.start t'.text⟩
  · exact (Reads.pure trivial).at

theorem reads_privateName (hlo : Cuts text lo) :
    Reads text (SitedExpr text) (privateName lo) :=
  keeps_advance.seq <| reads_anyName.seq <|
    (reads_spanFrom hlo).bind fun b hb => .pure ⟨hb.2.1, .inl hb.2.closes, by simp⟩

section Grammar

variable {g : Grammar} (hg : g.Sited text)
include hg

/-- By induction on the fuel: every operand extends the expression to its own end. -/
theorem reads_operatorsUpTo {fuel least : Nat} {left : Expr} (hleft : SitedExpr text left) :
    Reads text (SitedExpr text) (operatorsUpTo g fuel least left) := by
  induction fuel generalizing least left with
  | zero => exact .pure hleft
  | succ fuel ih =>
    refine keeps_read.seq <| reads_token.bind fun _ _ => ?_
    split
    · refine reads_ahead.bind fun _ _ => ?_
      split
      · exact keeps_advance.seq <| keeps_advance.seq <|
          (reads_spanFrom hleft.1).bind fun _ hspan =>
          ih ⟨hspan.2.1, hspan.2, by simpa using hleft.2⟩
      · refine keeps_advance.seq <| hg.type.inTypes.seq <|
          keeps_rejoin.bind fun _ _ => ?_
        exact (reads_spanFrom hleft.1).bind fun _ hspan =>
          ih ⟨hspan.2.1, hspan.2, by simpa using hleft.2⟩
    · split
      · exact .pure hleft
      · split
        · exact .pure hleft
        · refine keeps_advance.bind fun _ _ => ?_
          extract_lets -underBinder rest
          have hrest u : Reads text (SitedExpr text) (rest u) :=
            hg.unary.bind fun _ hfirst => (ih hfirst).bind fun _ hright =>
              ih ⟨hleft.1,
                sited_compound (partsEnd_last rfl) (by simpa using ⟨hleft.2, hright.2⟩)⟩
          clear_value rest
          split
          · split
            · exact reads_fail.fails
            · exact hrest _
          · split
            · exact reads_fail.fails
            · exact hrest _
          · exact hrest _

theorem reads_operators {e : Expr} (he : SitedExpr text e) :
    Reads text (SitedExpr text) (operators g e) :=
  keeps_read.seq <| reads_operatorsUpTo hg he

/-- A missing operand stands where reading failed. -/
theorem reads_binary : Reads text (SitedExpr text) (binary g) := by
  refine (hg.unary.tryCatch fun fault hfault => ?_).bind fun first hfirst => ?_
  · refine keeps_checkToken.seq <| keeps_read.seq <|
      reads_token.bind fun _ _ => ?_
    split
    · exact .pure ⟨hfault, sited_missing⟩
    · exact reads_throw hfault
  · split
    · exact .pure hfirst
    · exact reads_operators hg hfirst

theorem reads_operand : Reads text (SitedExpr text) (operand g) := by
  refine reads_here.bind fun lo hlo => keeps_advance.seq <| reads_here.seq <|
    Reads.bind (P := fun e => Sited text (.expr e)) ?_ fun e he =>
    .pure ⟨hlo, sited_compound (partsEnd_last rfl) (by simpa using he)⟩
  exact (hg.unary.imp fun _ he => he.2).tryCatch fun _ _ => .pure sited_missing

theorem reads_assigned (hlo : Cuts text lo) {left : Expr} (hleft : SitedExpr text left) :
    Reads text (SitedExpr text) (assigned g lo left) := by
  refine reads_token.bind fun b hb => ?_
  split
  · exact .pure hleft
  · exact (Patterns.reads_lift (Patterns.assignmentTarget_gives hleft)).bind fun target htarget =>
      keeps_advance.seq <|
      hg.assignment.bind fun value hvalue => (reads_spanFrom hlo).bind fun b hb =>
      .pure ⟨hb.2.1, hb.2, by simp [htarget, hvalue.2]⟩

theorem reads_parens {asyncAt : Option Ident} (hasyncAt : ∀ id ∈ asyncAt, Spelled text id) :
    Reads text (SitedExpr text) (parens g mayArrow asyncAt) :=
  Parens.reads_parens hg (reads_binary hg) (fun _ _ hlo hleft => reads_assigned hg hlo hleft)
    (fun _ he => reads_operators hg he) hasyncAt

theorem reads_functionWith {decorators : List Expr}
    (hdecorators : ∀ e ∈ decorators, Sited text (.expr e)) {async : Bool} {own : Bool} :
    Reads text (fun r => (∀ id ∈ r.1, Spelled text id) ∧ Sited text (.func r.2.1))
      (functionWith g decorators async own) :=
  keeps_expectWord.seq <| keeps_accept.seq <|
    (reads_optionalName reads_properName).within.bind fun _ hname =>
    (Functions.reads_tail hg hdecorators).bind fun ⟨_, _⟩ hfn => .pure ⟨hname, hfn⟩

theorem reads_function (hlo : Cuts text lo) {async : Bool} :
    Reads text (SitedExpr text) (function g lo async) := by
  refine (reads_functionWith hg (by simp)).bind fun ⟨name, fn, hasBody⟩ ⟨hname, hfn⟩ => ?_
  dsimp only at hfn ⊢
  split
  · exact (reads_spanFrom hlo).bind fun _ hspan => .pure ⟨hspan.2.1, hspan.2, by simp [hfn]⟩
  · exact reads_unexpected.fails

theorem reads_classDef (hlo : Cuts text lo) {decorators : List Expr}
    (hdecorators : ∀ e ∈ decorators, Sited text (.expr e)) :
    Reads text (SitedExpr text) (classDef g lo decorators) :=
  (Classes.reads_classWith hg hdecorators (reads_optionalName reads_lexicalName)).bind
    fun ⟨name, cls⟩ ⟨hname, hcls⟩ =>
    (reads_spanFrom hlo).bind fun b hb =>
    .pure ⟨hb.2.1, hb.2, by simp [hcls]⟩

theorem reads_named : Reads text (SitedExpr text) (named g mayArrow) := by
  refine reads_properName.bind fun id hid => keeps_read.seq <|
    reads_token.bind fun _ _ => ?_
  split
  · refine reads_ahead.bind fun b hb => ?_
    split
    · exact .pure hid.sited
    · refine reads_properName.bind fun param hparam => keeps_isAt.bind fun _ _ => ?_
      split
      · exact hg.type.inTypes.seq <| (reads_spanFrom hid.cuts_lo).bind fun b hb =>
          .pure ⟨hb.2.1, hb.2, by simpa using hid.sited.2⟩
      · exact keeps_expect.seq <|
          Functions.reads_arrowTail hg hid.cuts_lo (List.forall_mem_singleton.mpr ⟨hparam, by simp⟩)
  · extract_lets -underBinder rest
    have hrest u : Reads text (SitedExpr text) (rest u) := .pure hid.sited
    clear_value rest
    split
    · refine keeps_accept.bind fun _ _ => ?_
      split
      · exact Functions.reads_arrowTail hg hid.cuts_lo (List.forall_mem_singleton.mpr ⟨hid, by simp⟩)
      · exact hrest _
    · exact hrest _

/-- The word `async` is a word of the text in all readings. -/
theorem reads_asyncStart :
    ReadsAt text (fun t => t.isWord "async" = true) (fun o => ∀ e ∈ o, SitedExpr text e)
      (asyncStart g mayArrow) := by
  refine .read_bind fun mode => .token_bind fun t ht hword => .ahead_bind fun next _ => Reads.at ?_
  extract_lets -underBinder id rest
  have hid : Spelled text id := ht.spelled_role (by decide) hword
  split
  · exact keeps_advance.seq <|
      (reads_function hg ht.cuts_lo).bind fun b hb => .pure (by simpa using hb)
  · have hrest u : ReadsAny text (SitedExpr text) (rest u) := by
      unfold rest
      split
      · exact keeps_advance.seq <|
          (reads_parens hg (by simpa using hid)).bind fun b hb =>
          .pure (by simpa using hb)
      · exact .pure (by simp)
    clear_value rest
    split
    · refine (Reads.attempt (P := SitedExpr text) ?_).bind fun found hfound => ?_
      · exact keeps_advance.seq <| Calls.reads_asyncGenericArrow hg ht.cuts_lo
      · split
        · exact .pure hfound
        · exact hrest _
    · exact hrest _

theorem reads_decorated (hlo : Cuts text lo) :
    Reads text (SitedExpr text) (decorated g lo) := by
  refine (hg.decorators _).bind fun decorators hdecorators => keeps_isAtWord.bind fun _ _ =>
    ?_
  split
  · exact reads_classDef hg hlo hdecorators
  · refine keeps_read.seq <| reads_token.bind fun _ _ => ?_
    split
    · exact reads_named hg
    · exact reads_fail

/-- An expression without operators, by its first token. -/
theorem reads_primary : Reads text (SitedExpr text) (primary g) := by
  refine ReadsAt.reads (.read_bind fun mode => .token_bind fun t ht _ => ?_)
  extract_lets -underBinder span
  have hspan {form : Form} : SitedExpr text (.compound span form []) :=
    ⟨ht.cuts_lo, sited_compound (.inl ht.closes) (by simp)⟩
  refine .get_bind fun s => ?_
  extract_lets -underBinder mayArrow
  split
  · exact (keeps_advance.seq <| .pure hspan).at
  · exact (keeps_advance.seq <| .pure hspan).at
  · exact (keeps_advance.seq <| .pure hspan).at
  · exact (Literals.reads_template hg).at
  · exact (Literals.reads_array hg).at
  · exact (Literals.reads_object hg).at
  · exact (reads_parens hg (by simp)).at
  · rename_i hkind
    exact Literals.reads_regex.of_pre fun _ heq => .inl (heq ▸ hkind)
  · rename_i hkind
    exact Literals.reads_regex.of_pre fun _ heq => .inr (heq ▸ hkind)
  · exact (reads_privateName ht.cuts_lo).at
  · exact (reads_decorated hg ht.cuts_lo).at
  · split
    · exact (keeps_advance.seq <| .pure hspan).at
    · exact (keeps_advance.seq <| .pure hspan).at
    · exact (keeps_advance.seq <| .pure hspan).at
    · exact (keeps_advance.seq <| .pure hspan).at
    · exact (reads_function hg ht.cuts_lo).at
    · exact (reads_classDef hg ht.cuts_lo (by simp)).at
    · extract_lets -underBinder rest
      have hrest u : Reads text (SitedExpr text) (rest u) := by
        unfold rest
        split
        · exact reads_named hg
        · exact reads_fail
      clear_value rest
      split
      · rename_i hasync
        have hstart : ReadsAt text (· = t) (fun o => ∀ e ∈ o, SitedExpr text e)
            (asyncStart g mayArrow) :=
          (reads_asyncStart hg).of_pre fun _ heq => heq ▸ hasync
        refine hstart.bind fun found hfound => ?_
        split
        · exact .pure (hfound _ rfl)
        · exact hrest _
      · exact (hrest _).at
  · exact reads_fail.at

theorem reads_awaited {word : Span} (hword : Spelled text ⟨"await", word⟩) :
    Reads text (SitedExpr text) (awaited g word) := by
  refine keeps_isAt.bind fun _ _ => ?_
  extract_lets -underBinder rest
  have hrest u : Reads text (SitedExpr text) (rest u) := by
    refine keeps_read.seq <| keeps_atStatementEnd.seq <|
      keeps_isAtAny.bind fun _ _ => ?_
    split
    · exact .pure hword.sited
    · exact hg.unary.bind fun _ he => (reads_spanFrom hword.cuts_lo).bind fun _ hspan =>
        .pure ⟨hspan.2.1, sited_compound (.inl hspan.2.closes) (by simpa using he.2)⟩
  clear_value rest
  split
  · exact reads_fail.fails
  · exact hrest _

theorem reads_awaiting :
    ReadsAt text (fun t => t.isWord "await" = true) (SitedExpr text) (awaiting g) :=
  (reads_wordSpan (by decide)).bind fun _ hword => keeps_advance.seq <|
    reads_awaited hg hword

theorem reads_assertion : Reads text (SitedExpr text) (assertion g) := by
  refine reads_here.bind fun lo hlo => reads_ahead.bind fun _ _ => ?_
  split
  · exact keeps_advance.seq <| keeps_advance.seq <|
      keeps_expect.seq <| hg.unary.bind fun e he =>
      (reads_spanFrom hlo).bind fun b hb => .pure ⟨hb.2.1, hb.2, by simp [he.2]⟩
  · exact keeps_advance.seq <| hg.type.inTypes.seq <|
      keeps_expect.seq <| hg.unary.bind fun e he =>
      (reads_spanFrom hlo).bind fun b hb => .pure ⟨hb.2.1, hb.2, by simp [he.2]⟩

theorem reads_unary : Reads text (SitedExpr text) (unary g) := by
  refine ReadsAt.reads (.read_bind fun mode => .token_bind fun t ht _ => ?_)
  extract_lets -underBinder rest
  have hrest u : ReadsAt text (· = t) (SitedExpr text) (rest u) := by
    unfold rest
    split
    · exact (keeps_advance.seq <| hg.unary.bind fun _ he =>
        (reads_spanFrom ht.cuts_lo).bind fun _ hspan =>
        .pure ⟨hspan.2.1, hspan.2, by simpa using he.2⟩).at
    · split
      · exact (reads_operand hg).at
      · split
        · rename_i hawait
          exact (reads_awaiting hg).of_pre fun _ heq => heq ▸ hawait
        · refine Reads.at (hg.leftHand.bind fun e he => ?_)
          split
          · exact .pure he
          · refine reads_token.bind fun _ _ => ?_
            split
            · exact keeps_advance.seq <| (reads_spanFrom ht.cuts_lo).bind fun _ hspan =>
                .pure ⟨hspan.2.1, hspan.2, by simpa using he.2⟩
            · exact .pure he
  clear_value rest
  split
  · split
    · refine .ahead_bind fun next _ => ?_
      split
      · exact (hg.element _).at
      · exact hrest _
    · split
      · exact (reads_assertion hg).at
      · exact hrest _
  · exact hrest _

theorem reads_conditional : Reads text (SitedExpr text) (conditional g) := by
  refine (reads_binary hg).bind fun test htest => ?_
  split
  · exact .pure htest
  · refine keeps_accept.bind fun _ _ => ?_
    split
    · exact (Parens.reads_branches hg).bind fun _ hparts =>
        .pure ⟨htest.1, sited_compound (partsEnd_last rfl)
          (by simpa using ⟨htest.2, hparts.1.2, hparts.2.2⟩)⟩
    · exact .pure htest

theorem reads_yielding : Reads text (SitedExpr text) (yielding g) := by
  refine reads_here.bind fun lo hlo => keeps_read.bind fun _ _ => ?_
  extract_lets -underBinder rest
  have hrest u : Reads text (SitedExpr text) (rest u) := by
    refine keeps_advance.seq <| reads_token.seq <|
      keeps_atStatementEnd.bind fun _ _ => ?_
    split
    · exact (reads_spanFrom hlo).bind fun b hb => .pure ⟨hb.2.1, .inl hb.2.closes, by simp⟩
    · exact keeps_accept.seq <| hg.assignment.bind fun e he =>
        (reads_spanFrom hlo).bind fun b hb => .pure ⟨hb.2.1, .inl hb.2.closes, by simp [he.2]⟩
  clear_value rest
  split
  · exact reads_fail.fails
  · exact hrest _

theorem reads_untyped : Reads text (SitedExpr text) (untyped g) := by
  refine keeps_read.seq <| reads_token.bind fun t ht => ?_
  split
  · exact reads_yielding hg
  · extract_lets -underBinder mayArrow
    refine keeps_arrowStart.seq <| (reads_conditional hg).bind fun e he => ?_
    split
    · exact .pure he
    · exact .pure he
    · exact .pure he
    · exact .pure he
    · exact .pure he
    · exact .pure he
    · exact reads_assigned hg ht.cuts_lo he

theorem reads_genericArrow (hlo : Cuts text lo) :
    ReadsAny text (SitedExpr text) (genericArrow g lo) := by
  refine Reads.within ((Calls.keeps_arrowTypeParams hg).seq <|
    (reads_untyped hg).bind fun e he => ?_)
  have hparts := he.2.all_parts
  have hend := he.2.here
  split
  · exact .pure (by simpa using ⟨hlo, ⟨⟨hlo, hend.cuts_hi, hend.closes⟩, hparts⟩⟩)
  · exact .pure (by simpa using ⟨hlo, ⟨⟨hlo, hend.cuts_hi, hend.closes⟩, hparts⟩⟩)
  · exact .pure (by simp)

theorem reads_assignment : Reads text (SitedExpr text) (assignment g) := by
  refine reads_token.bind fun t ht => keeps_read.seq <| reads_ahead.bind fun b hb =>
    ?_
  extract_lets -underBinder rest
  have hrest u : Reads text (SitedExpr text) (rest u) := reads_untyped hg
  clear_value rest
  split
  · refine (reads_genericArrow hg ht.cuts_lo).attempt.bind fun b hb => ?_
    split
    · have he := hb _ rfl
      exact .pure he
    · exact hrest _
  · exact hrest _

end Grammar

end RefSugar.Syntax.Operators

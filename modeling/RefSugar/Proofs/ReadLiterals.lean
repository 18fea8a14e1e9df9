import RefSugar.Proofs.ReadPatterns
import RefSugar.Syntax.Literals

/-! The readers of functions, keys, arguments and literals keep their place. -/
namespace RefSugar.Syntax.Functions

variable {async generator : Bool} {decorators : List Expr}

variable {text : List Char}

theorem keeps_asksStrictness : Keeps text asksStrictness := by
  refine reads_ahead.bind fun _ _ => ?_
  extract_lets -underBinder spelling
  exact keeps_isAt.seq <| .pure trivial

theorem sited_getD {stmts : Option (List Stmt)}
    (h : ∀ body ∈ stmts, ∀ st ∈ body, Sited text (.stmt st)) :
    ∀ st ∈ stmts.getD [], Sited text (.stmt st) := by
  cases stmts with
  | none => simp
  | some body => exact h body rfl

theorem keeps_atMethod : Keeps text atMethod := by
  refine keeps_isAt.bind fun _ _ => ?_
  split
  · exact .pure trivial
  · exact keeps_whenTyped keeps_isAt

section Grammar

variable {g : Grammar} (hg : g.Sited text)
include hg

theorem reads_body :
    ReadsAny text (fun a => ∀ st ∈ a, Sited text (.stmt st)) (body g async generator) := by
  refine Reads.within ?_
  refine (keeps_whenTyped ?_).bind fun _ _ => ?_
  · exact keeps_isAt.seq <| keeps_acceptStatementEnd.seq <| .pure trivial
  · split
    · exact .pure (by simp)
    · refine keeps_asksStrictness.seq <| Reads.within ?_
      exact hg.block.allowIn.bind fun b hb => .pure (by simpa using hb)

theorem reads_tailAndBody (hdecorators : ∀ e ∈ decorators, Sited text (.expr e)) :
    Reads text (fun r => Sited text (.func r.1)) (tailAndBody g decorators async generator) := by
  refine Reads.within ?_
  refine (Types.keeps_optionalTypeParams hg).seq <| keeps_expect.seq <|
    hg.params.within.bind fun params hparams => keeps_expect.seq <|
    (keeps_whenTyped keeps_isAt).bind fun _ _ => ?_
  extract_lets -underBinder rest
  have hrest u : Reads text (fun r => Sited text (.func r.1)) (rest u) :=
    (reads_body hg).bind fun stmts hstmts =>
      .pure ⟨trivial, by
        simp +contextual [or_imp, forall_and, hdecorators, hparams, sited_getD hstmts]⟩
  clear_value rest
  split
  · exact (Types.keeps_resultType hg).seq <| hrest _
  · exact hrest _

theorem reads_methodTail (hdecorators : ∀ e ∈ decorators, Sited text (.expr e)) :
    Reads text (fun f => Sited text (.func f)) (methodTail g decorators async generator) :=
  (reads_tailAndBody hg hdecorators).within.bind fun _ hfn => .pure hfn

theorem reads_tail (hdecorators : ∀ e ∈ decorators, Sited text (.expr e)) :
    Reads text (fun r => Sited text (.func r.1)) (tail g decorators async generator) :=
  (reads_tailAndBody hg hdecorators).within

theorem reads_arrowTail {lo : Nat} (hlo : Cuts text lo) {params : List Pattern}
    (hparams : ∀ p ∈ params, Sited text (.pattern p)) :
    Reads text (SitedExpr text) (arrowTail g lo async params) := by
  refine Reads.within ?_
  refine keeps_isAt.bind fun _ _ => ?_
  split
  · exact hg.block.bind fun stmts hstmts => (reads_spanFrom hlo).bind fun b hb =>
      .pure ⟨hb.2.1, hb.2, by simp +contextual [or_imp, forall_and, hparams, hstmts]⟩
  · exact hg.assignment.bind fun result hresult => (reads_spanFrom hlo).bind fun b hb =>
      .pure ⟨hb.2.1, hb.2, by simp +contextual [or_imp, hparams, hresult.2]⟩

end Grammar

end RefSugar.Syntax.Functions

namespace RefSugar.Syntax.Literals

variable {text : List Char}

theorem setterParam_sited {params : List Param} (h : ∀ p ∈ params, Sited text (.param p)) :
    Sited text (.pattern (setterParam params)) := by
  unfold setterParam
  split
  · exact ⟨trivial, by simp⟩
  · exact (h _ (List.mem_cons_self ..)).target
  · exact (h _ (List.mem_cons_of_mem _ (List.mem_cons_self ..))).target

/-- A regular expression, read where a division was found. -/
theorem reads_regex :
    ReadsAt text (fun t => t.kind = .punct "/" ∨ t.kind = .punct "/=") (SitedExpr text) regex := by
  refine .token_bind fun t ht hslash => ?_
  obtain ⟨rest, htext, hfollows⟩ : ∃ rest, t.text = '/' :: rest ∧
      Cursor.Follows ⟨t.start, t.text⟩ ⟨t.start + 1, t.text.drop 1⟩ := by
    obtain hkind | hkind := hslash
    · exact ht.behind_sign hkind (by decide) rfl rfl
    · exact ht.behind_sign hkind (by decide) rfl rfl
  split
  · rename_i stop hscan
    refine ReadsAt.bind (P := fun _ => True) (keeps_rescan fun t' _ heq => ?_) fun _ _ =>
      keeps_checkToken.seq <| keeps_advance.seq <|
      (reads_spanFrom ht.cuts_lo).bind fun _ hspan =>
        .pure ⟨hspan.2.1, sited_compound (.inl hspan.2.closes) (by simp)⟩
    subst heq
    refine ⟨Lexer.scanFlags_scans _ _ (hfollows.trans (Lexer.scanRegex_follows hscan)), ?_⟩
    rw [htext] at hscan ⊢
    exact (Cursor.Ends.step '/' (Lexer.scanRegex_ends hscan)).completes
  · refine ReadsAt.bind (P := fun _ => True) (keeps_rescan fun t' _ heq => ?_) fun _ _ => reads_fail
    subst heq
    exact ⟨⟨.ended (.here _), .here _⟩, (Cursor.Plainly.refl _).completes⟩

section Grammar

variable {g : Grammar} (hg : g.Sited text)
include hg

theorem reads_computedKey : Reads text (SitedKey text) (computedKey g) := by
  refine reads_here.bind fun lo hlo => hg.assignment.allowIn.bind fun first hfirst =>
    (Reads.collect (P := SitedExpr text) ?_).bind fun more hmore =>
    (reads_spanFrom hlo).bind fun span hspan => keeps_expect.seq <| .pure ?_
  · refine (keeps_whenTyped keeps_accept).bind fun _ _ => ?_
    split
    · exact hg.assignment.allowIn.bind fun b hb => .pure (by simpa using hb)
    · exact .pure (by simp)
  · have hkey : Sited text
        (.expr (if more.isEmpty then first else .compound span .sequence (first :: more))) := by
      split
      · exact hfirst.2
      · exact sited_compound (.inl hspan.2.closes)
          (List.forall_mem_cons.mpr ⟨hfirst.2, fun e he => (hmore e he).2⟩)
    exact ⟨by simp, trivial, by simpa using hkey⟩

theorem reads_key : Reads text (SitedKey text) (key g) := by
  refine reads_token.bind fun t ht => ?_
  extract_lets -underBinder span
  split
  · exact keeps_advance.seq <| .pure ⟨by simp, trivial, by simp⟩
  · exact keeps_advance.seq <| .pure ⟨by simp, trivial, by simp⟩
  · exact keeps_advance.seq <| .pure ⟨by simp, trivial, by simp⟩
  · rename_i name role hkind
    exact keeps_advance.seq <|
      .pure ⟨by simpa using (ht.spelled_word hkind).1, trivial, by simp⟩
  · exact keeps_advance.seq <| reads_computedKey hg
  · exact reads_unexpected

theorem reads_item : Reads text (SitedItem text) (item g) := by
  refine keeps_accept.bind fun _ _ => ?_
  split
  · exact hg.assignment.allowIn.bind fun b hb => .pure (by simpa [SitedItem, Item.expr?] using hb)
  · exact hg.assignment.allowIn.bind fun b hb => .pure (by simpa [SitedItem, Item.expr?] using hb)

theorem reads_args : ReadsAll text (fun i => Sited text (.item i)) (args g) :=
  Reads.within (keeps_expect.seq <|
    (reads_item hg).commaList.bind fun _ hitems => keeps_expect.seq <|
    .pure fun i hi => SitedItem.sited (hitems i hi))

theorem reads_array : Reads text (SitedExpr text) (array g) := by
  refine Reads.within ?_
  refine reads_here.bind fun lo hlo => keeps_expect.seq <|
    (Reads.collect (P := fun i => Sited text (.item i)) ?_).bind fun items hitems => ?_
  · refine keeps_isAt.bind fun _ _ => ?_
    split
    · exact .pure (by simp)
    · refine keeps_accept.bind fun _ _ => ?_
      split
      · exact .pure (by simpa using ⟨trivial, by simp [Item.expr?]⟩)
      · refine (reads_item hg).bind fun found hfound => keeps_isAt.bind fun _ _ => ?_
        extract_lets -underBinder rest
        have hrest u : ReadsAny text (fun i => Sited text (.item i)) (rest u) :=
          .pure (by simpa using SitedItem.sited hfound)
        clear_value rest
        split
        · exact hrest _
        · exact keeps_expect.seq <| hrest _
  · exact keeps_expect.seq <| (reads_spanFrom hlo).bind fun b hb =>
      .pure ⟨hb.2.1, hb.2, by simp +contextual [hitems]⟩

theorem reads_wordProperty {lo : Nat} (hlo : Cuts text lo) {word : String} :
    Reads text (fun p => Sited text (.property p)) (wordProperty g lo word) := by
  unfold wordProperty
  extract_lets -underBinder rest
  have hrest u : Reads text (fun p => Sited text (.property p)) (rest u) := by
    refine hg.key.bind fun key hkey =>
      (Functions.reads_methodTail hg (by simp)).bind fun fn hfn =>
      (reads_spanFrom hlo).bind fun span hspan => ?_
    split
    · exact .pure ⟨hspan.2.1, by simpa using ⟨hkey.2, hfn.body⟩⟩
    · exact .pure ⟨hspan.2.1, by simpa using ⟨hkey.2, setterParam_sited hfn.params, hfn.body⟩⟩
    · exact .pure ⟨hspan.2.1, by simp [hkey.2, hfn]⟩
  clear_value rest
  split
  · exact keeps_accept.seq <| hrest _
  · exact hrest _

/-- A member from its key on. -/
theorem reads_propertyTail {lo : Nat} (hlo : Cuts text lo) {key : Key} (hkey : SitedKey text key) :
    Reads text (fun p => Sited text (.property p)) (propertyTail g lo key) := by
  refine keeps_read.bind fun _ _ => ?_
  extract_lets -underBinder typescript
  refine keeps_accept.bind fun _ _ => ?_
  split
  · exact hg.assignment.allowIn.bind fun b hb => .pure ⟨trivial, by simp [hkey.2, hb.2]⟩
  · refine Functions.keeps_atMethod.bind fun _ _ => ?_
    split
    · exact (Functions.reads_methodTail hg (by simp)).bind fun fn hfn =>
        (reads_spanFrom hlo).bind fun b hb => .pure ⟨hb.2.1, by simp [hkey.2, hfn]⟩
    · refine reads_token.bind fun b hb => ?_
      split
      · exact (reads_spanFrom hlo).bind fun b hb =>
          .pure ⟨trivial, by simpa using ⟨hkey.2, sited_compound (.inl hb.2.closes) (by simp)⟩⟩
      · split
        · have hid := hkey.1 _ rfl
          refine keeps_accept.seq <| keeps_isAtAny.bind fun _ _ => ?_
          split
          · refine keeps_accept.bind fun _ _ => ?_
            split
            · exact hg.assignment.allowIn.bind fun b hb => .pure ⟨hid, by simp [hb.2]⟩
            · exact .pure ⟨hid, by simp⟩
          · split
            · exact (reads_wordProperty hg hlo)
            · split
              · exact reads_unexpected
              · exact reads_unexpected
        · exact reads_unexpected

theorem reads_property : Reads text (fun p => Sited text (.property p)) (property g) := by
  refine reads_here.bind fun lo hlo => keeps_accept.bind fun _ _ => ?_
  split
  · exact hg.assignment.allowIn.bind fun b hb => .pure ⟨trivial, by simp [hb.2]⟩
  · refine keeps_accept.bind fun _ _ => ?_
    split
    · exact hg.key.bind fun key hkey =>
        (Functions.reads_methodTail hg (by simp)).bind fun fn hfn =>
        (reads_spanFrom hlo).bind fun b hb => .pure ⟨hb.2.1, by simp [hkey.2, hfn]⟩
    · exact keeps_skipParamModifier.seq <| hg.key.bind fun key hkey =>
        (reads_propertyTail hg hlo hkey)

theorem reads_object : Reads text (SitedExpr text) (object g) := by
  refine Reads.within ?_
  exact reads_here.bind fun lo hlo => keeps_expect.seq <|
    (reads_property hg).commaList.bind fun properties hproperties =>
    keeps_expect.seq <| (reads_spanFrom hlo).bind fun b hb =>
    .pure ⟨hb.2.1, hb.2, by simp +contextual [hproperties]⟩

/-- The expressions of a template, between its pieces. -/
theorem reads_interpolations {tagged : Bool} :
    ReadsAll text (SitedExpr text) (interpolations g tagged) := by
  refine (Reads.within (P := fun a => ∀ e ∈ a, SitedExpr text e) ?_).bind fun parts hparts => ?_
  · refine Reads.collect ?_
    extract_lets -underBinder rest
    have hrest u : ReadsAny text (SitedExpr text) (rest u) := by
      refine reads_token.bind fun _ _ => ?_
      split
      · exact keeps_advance.seq <| hg.expression.allowIn.bind fun e he =>
          Types.keeps_templateRest.seq <| .pure (by simpa using he)
      · exact .pure (by simp)
    clear_value rest
    split
    · exact hrest _
    · exact keeps_checkPiece.seq <| hrest _
  · exact keeps_advance.seq <| .pure hparts

theorem reads_template : Reads text (SitedExpr text) (template g) :=
  reads_here.bind fun lo hlo =>
    (reads_interpolations hg).bind fun parts hparts =>
    (reads_spanFrom hlo).bind fun b hb =>
    .pure ⟨hb.2.1, .inl hb.2.closes, by simp +contextual [hparts]⟩

end Grammar

end RefSugar.Syntax.Literals

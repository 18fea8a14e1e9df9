import RefSugar.Proofs.Reads
import RefSugar.Syntax.Types

/-! The readers of types keep their place. -/
namespace RefSugar.Syntax.Types

variable {text : List Char} {g : Grammar}

theorem keeps_delimited {close : String} {element : Reader Unit} (h : Keeps text element) :
    Keeps text (delimited close element) :=
  h.commaList.seq <| .pure trivial

/-- The rest of a template behind the brace that ends an interpolation. -/
theorem keeps_templateRest : Keeps text templateRest := by
  refine ReadsAt.reads (.token_bind fun t ht _ => ?_)
  extract_lets -underBinder scanned
  have hscanned : t.isPunct "\x7d" = true →
      ReadsAt text (· = t) (fun _ => True) (scanned ()) := by
    intro hbrace
    obtain ⟨rest, htext, hfollows⟩ :=
      ht.behind_sign (Token.kind_of_isPunct hbrace) (by decide) rfl rfl
    unfold scanned
    split
    · rename_i stop more hscan
      refine keeps_rescan fun t' _ heq => ?_
      subst heq
      refine ⟨⟨hfollows.trans (Lexer.scanTemplate_follows hscan), '\x7d', rest, htext, rfl⟩, ?_⟩
      rw [htext] at hscan ⊢
      exact (Cursor.Ends.step '\x7d' (Lexer.scanTemplate_ends hscan)).completes
    · exact (reads_failAt ht.cuts_lo).at
  clear_value scanned
  split
  · rename_i hbrace
    exact hscanned hbrace
  · exact reads_unexpected.fails.at

theorem keeps_entityName {name : Reader Ident} (hname : Keeps text name) :
    Keeps text (entityName name) := by
  refine reads_anyName.seq <|
    Reads.bind (P := fun _ => True) (keeps_collect ?_) fun _ _ => ?_
  · refine keeps_accept.bind fun _ _ => ?_
    split
    · refine reads_token.bind fun _ _ => ?_
      split
      · exact hname.seq <| .pure trivial
      · exact .pure trivial
    · exact .pure trivial
  · exact .pure trivial

theorem keeps_memberEnd : Keeps text memberEnd := by
  refine keeps_accept.bind fun _ _ => ?_
  split
  · exact .pure trivial
  · exact keeps_expectStatementEnd

theorem keeps_atIndexSignature : Keeps text atIndexSignature := by
  refine keeps_isAt.bind fun _ _ => ?_
  split
  · exact .pure trivial
  · refine keeps_foresee ?_
    refine keeps_advance.seq <| keeps_isAtReference.bind fun _ _ => ?_
    split
    · exact keeps_advance.seq <| keeps_isAtAny
    · exact .pure trivial

theorem keeps_atMappedType : Keeps text atMappedType := by
  refine keeps_foresee ?_
  refine keeps_advance.seq <| keeps_isAtAny.bind fun _ _ => ?_
  split
  · exact keeps_advance.seq <| keeps_isAtWord
  · refine keeps_acceptWord.seq <| keeps_accept.bind fun _ _ => ?_
    split
    · exact .pure trivial
    · refine keeps_isAtReference.bind fun _ _ => ?_
      split
      · exact .pure trivial
      · exact keeps_advance.seq <| keeps_isAtWord

theorem keeps_tupleLabel : Keeps text tupleLabel :=
  keeps_accept.seq <| reads_anyName.seq <|
    keeps_accept.seq <| keeps_expect.seq <| .pure trivial

theorem keeps_joined {operator : String} {part : Reader Unit} (hpart : Keeps text part) :
    Keeps text (joined operator part) := by
  refine keeps_accept.seq <| hpart.seq <|
    Reads.bind (P := fun _ => True) (keeps_collect ?_) fun _ _ => ?_
  · refine keeps_accept.bind fun _ _ => ?_
    split
    · exact hpart.seq <| .pure trivial
    · exact .pure trivial
  · exact .pure trivial

section Grammar

variable (hg : g.Sited text)
include hg

/-- Angle brackets that stand together are taken apart. -/
theorem keeps_typeArgs : Keeps text (typeArgs g) := by
  refine Reads.bind (P := fun _ => True) (Reads.inTypes ?_) fun _ _ => keeps_expect
  refine ReadsAt.reads (.isAt_bind ?_ ?_)
  · refine .token_bind fun t ht hpre => ?_
    refine ReadsAt.bind (P := fun _ => True) (keeps_rescan fun t' _ heq => ?_) fun _ _ =>
      keeps_expect.seq <| keeps_delimited hg.type
    subst heq
    obtain ⟨rest, htext, hfollows⟩ :=
      ht.behind_sign (Token.kind_of_isPunct hpre.2) (by decide) rfl rfl
    exact ⟨⟨hfollows, .inr (by rw [htext]; exact ⟨rest, rfl⟩)⟩,
      Token.completes_byte htext (by decide) rfl⟩
  · exact (keeps_expect.seq <| keeps_delimited hg.type).at

theorem keeps_plainTypeArgs : Keeps text (plainTypeArgs g) :=
  hg.typeArgs.within

theorem keeps_optionalTypeArgs {brackets : List String} :
    Keeps text (optionalTypeArgs g brackets) := by
  refine reads_token.seq <| keeps_isAtAny.bind fun _ _ => ?_
  split
  · exact keeps_plainTypeArgs hg
  · exact .pure trivial

theorem keeps_typeParam : Keeps text (typeParam g) := by
  refine (keeps_collect keeps_acceptModifier).seq <| reads_anyName.seq <|
    keeps_acceptWord.bind fun _ _ => ?_
  extract_lets -underBinder rest
  have hrest u : Keeps text (rest u) := by
    refine keeps_accept.bind fun _ _ => ?_
    extract_lets -underBinder more
    have hmore u : Keeps text (more u) := .pure trivial
    clear_value more
    split
    · exact hg.type.seq <| hmore _
    · exact hmore _
  clear_value rest
  split
  · exact hg.type.seq <| hrest _
  · exact hrest _

theorem keeps_typeParams : Keeps text (typeParams g) := by
  refine Reads.inTypes ?_
  refine keeps_isAt.bind fun _ _ => ?_
  extract_lets -underBinder rest
  have hrest u : Keeps text (rest u) := by
    refine keeps_advance.seq <|
      Reads.bind (P := fun _ => True) (keeps_collect ?_) fun found _ => ?_
    · refine keeps_isAt.bind fun _ _ => ?_
      split
      · exact .pure trivial
      · refine (keeps_typeParam hg).seq <| keeps_isAt.bind fun _ _ => ?_
        split
        · exact .pure trivial
        · exact keeps_expect.seq <| .pure trivial
    · exact keeps_expect.seq <| .pure trivial
  clear_value rest
  split
  · exact hrest _
  · exact reads_unexpected.fails

theorem keeps_optionalTypeParams : Keeps text (optionalTypeParams g) := by
  refine keeps_read.seq <| keeps_isAt.bind fun _ _ => ?_
  split
  · exact hg.typeParams.seq <| .pure trivial
  · exact .pure trivial

theorem keeps_annotation? : Keeps text (annotation? g) := by
  refine keeps_read.seq <| keeps_isAt.bind fun _ _ => ?_
  split
  · refine Reads.bind (P := fun _ => True) (Reads.inTypes ?_) fun _ _ => ?_
    · exact keeps_advance.seq <| hg.type
    · exact .pure trivial
  · exact .pure trivial

theorem keeps_annotated : Keeps text <| optionalAnnotation g :=
  (keeps_annotation? hg).seq <| .pure trivial

theorem keeps_resultType {mark : String} : Keeps text (resultType g mark) := by
  refine Reads.inTypes ?_
  refine keeps_expect.seq <| keeps_isAtWord.seq <|
    keeps_read.seq <| reads_ahead.bind fun _ _ => ?_
  extract_lets -underBinder asserts rest
  have hrest u : Keeps text (rest u) := by
    refine reads_ahead.seq <| keeps_isAtReference.bind fun _ _ => ?_
    extract_lets -underBinder isTest
    split
    · refine reads_anyName.bind fun _ _ => ?_
      split
      · exact keeps_advance.seq <| hg.type
      · exact .pure trivial
    · exact hg.type
  clear_value rest
  split
  · exact keeps_advance.seq <| hrest _
  · exact hrest _

theorem keeps_signatureParams : Keeps text (signatureParams g) := by
  refine hg.params.bind fun _ _ => ?_
  extract_lets -underBinder hasDefault rest
  have hrest u : Keeps text (rest u) := keeps_expect.seq <| .pure trivial
  clear_value rest
  split
  · exact reads_unexpected.fails
  · exact hrest _

theorem keeps_indexSignature? : Keeps text (indexSignature? g) := by
  refine keeps_atIndexSignature.bind fun _ _ => ?_
  split
  · refine keeps_expect.seq <| reads_anyName.seq <|
      keeps_accept.bind fun _ _ => ?_
    extract_lets -underBinder rest
    have hrest u : Keeps text (rest u) :=
      hg.type.inTypes.seq <| keeps_expect.seq <|
        (keeps_annotated hg).seq <| keeps_memberEnd.seq <|
        .pure trivial
    clear_value rest
    split
    · exact hrest _
    · exact keeps_expect.seq <| hrest _
  · exact .pure trivial

theorem keeps_signature : Keeps text (signature g) := by
  refine (keeps_optionalTypeParams hg).seq <| keeps_expect.seq <|
    (keeps_signatureParams hg).seq <| keeps_isAt.bind fun _ _ => ?_
  split
  · exact keeps_resultType hg
  · exact .pure trivial

theorem keeps_memberKey : Keeps text (memberKey g) := by
  refine keeps_accept.bind fun _ _ => ?_
  split
  · exact hg.assignment.seq <| keeps_expect
  · refine reads_token.bind fun _ _ => ?_
    split
    · exact hg.member.seq <| .pure trivial
    · refine keeps_isAt.bind fun _ _ => ?_
      extract_lets -underBinder rest
      have hrest u : Keeps text (rest u) := reads_anyName.seq <| .pure trivial
      clear_value rest
      split
      · exact keeps_privateHash.seq <| hrest _
      · exact hrest _

theorem keeps_accessor {readonlySeen : Bool} : Keeps text (accessor g readonlySeen) := by
  unfold accessor
  extract_lets -underBinder rest
  have hrest u : Keeps text (rest u) := by
    refine keeps_acceptWord.bind fun _ _ => ?_
    extract_lets -underBinder more
    have hmore u : Keeps text (more u) := by
      refine (keeps_memberKey hg).seq <| keeps_expect.bind fun _ _ => ?_
      extract_lets -underBinder later
      have hlater u : Keeps text (later u) :=
        keeps_memberEnd.seq <| .pure trivial
      clear_value later
      split
      · exact keeps_expect.seq <| (keeps_annotated hg).seq <| hlater _
      · refine (keeps_signatureParams hg).bind fun _ _ => ?_
        split
        · exact reads_fail.fails
        · exact hlater _
    clear_value more
    split
    · exact hmore _
    · exact keeps_expectWord.seq <| hmore _
  clear_value rest
  split
  · exact reads_fail.fails
  · exact hrest _

/-- A member of a type, by its first token. -/
theorem keeps_typeMember : Keeps text (typeMember g) := by
  refine keeps_isAtAny.bind fun _ _ => ?_
  split
  · exact (keeps_signature hg).seq <| keeps_memberEnd.seq <| .pure trivial
  · refine reads_ahead.seq <| keeps_isAtWord.bind fun _ _ => ?_
    split
    · exact keeps_advance.seq <| (keeps_signature hg).seq <|
        keeps_memberEnd.seq <| .pure trivial
    · refine keeps_acceptModifier.bind fun _ _ => ?_
      extract_lets -underBinder readonlySeen
      refine (keeps_indexSignature? hg).bind fun _ _ => ?_
      split
      · exact .pure trivial
      · refine (keeps_attempt (keeps_accessor hg)).bind fun _ _ => ?_
        split
        · exact .pure trivial
        · refine (keeps_memberKey hg).seq <| keeps_accept.seq <|
            keeps_isAtAny.bind fun _ _ => ?_
          extract_lets -underBinder rest more
          have hrest u : Keeps text (rest u) := keeps_memberEnd
          clear_value rest
          split
          · have hmore u : Keeps text (more u) := by
              exact (keeps_signature hg).seq <| hrest _
            clear_value more
            split
            · exact reads_fail.fails
            · exact hmore _
          · exact (keeps_annotated hg).seq <| hrest _

theorem keeps_typeMembers : Keeps text (typeMembers g) := by
  refine keeps_expect.seq <|
    Reads.bind (P := fun _ => True) (keeps_collect ?_) fun _ _ => ?_
  · refine keeps_isAt.bind fun _ _ => ?_
    split
    · exact .pure trivial
    · exact (keeps_typeMember hg).seq <| .pure trivial
  · exact keeps_expect

theorem keeps_mappedType : Keeps text (mappedType g) := by
  refine keeps_expect.seq <| keeps_isAtAny.bind fun _ _ => ?_
  extract_lets -underBinder rest
  have hrest u : Keeps text (rest u) := by
    refine keeps_expect.seq <| reads_anyName.seq <|
      keeps_acceptWord.bind fun _ _ => ?_
    extract_lets -underBinder more
    have hmore u : Keeps text (more u) := by
      refine hg.type.seq <| keeps_acceptWord.bind fun _ _ => ?_
      extract_lets -underBinder later
      have hlater u : Keeps text (later u) := by
        refine keeps_expect.seq <| keeps_isAtAny.bind fun _ _ => ?_
        extract_lets -underBinder final
        have hfinal u : Keeps text (final u) :=
          (keeps_annotated hg).seq <| keeps_expectStatementEnd.seq <|
            keeps_expect
        clear_value final
        split
        · exact keeps_advance.seq <| keeps_expect.seq <| hfinal _
        · exact keeps_accept.seq <| hfinal _
      clear_value later
      split
      · exact hg.type.seq <| hlater _
      · exact hlater _
    clear_value more
    split
    · exact hmore _
    · exact reads_unexpected.fails
  clear_value rest
  split
  · exact keeps_advance.seq <| keeps_expectWord.seq <| hrest _
  · exact keeps_acceptWord.seq <| hrest _

theorem keeps_tupleItem : Keeps text (tupleItem g) := by
  refine (keeps_attempt keeps_tupleLabel).seq <| keeps_accept.bind fun _ _ => ?_
  split
  · exact hg.type.seq <| .pure trivial
  · exact hg.type.seq <| keeps_accept.seq <| .pure trivial

theorem keeps_tuple : Keeps text (tuple g) := by
  refine reads_here.bind fun lo hlo => keeps_advance.seq <|
    (keeps_tupleItem hg).commaList.seq <| keeps_expect.bind fun _ _ => ?_
  split
  · exact reads_failAt hlo
  · exact .pure trivial

theorem keeps_templateType : Keeps text (templateType g) := by
  refine Reads.bind (P := fun _ => True) (keeps_collect ?_) fun _ _ => ?_
  · refine reads_token.bind fun _ _ => ?_
    split
    · exact keeps_advance.seq <| hg.type.seq <|
        keeps_templateRest.seq <| .pure trivial
    · exact .pure trivial
  · exact keeps_advance

theorem keeps_importType : Keeps text (importType g) := by
  refine keeps_expectWord.seq <| keeps_expect.seq <|
    keeps_checkToken.seq <| keeps_advance.seq <|
    keeps_accept.seq <| keeps_isAt.bind fun _ _ => ?_
  extract_lets -underBinder rest
  have hrest u : Keeps text (rest u) := by
    refine keeps_expect.seq <| keeps_accept.bind fun _ _ => ?_
    extract_lets -underBinder more
    have hmore u : Keeps text (more u) := by
      refine keeps_isAt.bind fun _ _ => ?_
      split
      · exact keeps_plainTypeArgs hg
      · exact .pure trivial
    clear_value more
    split
    · exact (keeps_entityName reads_nameOr.keeps).seq <| hmore _
    · exact hmore _
  clear_value rest
  split
  · refine keeps_advance.seq <| keeps_expectWord.seq <|
      keeps_expect.seq <| keeps_isAt.bind fun _ _ => ?_
    extract_lets -underBinder more
    have hmore u : Keeps text (more u) :=
      hg.assignment.seq <| keeps_accept.seq <|
        keeps_expect.seq <| hrest _
    clear_value more
    split
    · exact hmore _
    · exact reads_token.seq <| reads_fail.fails
  · exact hrest _

theorem keeps_atFunctionParens : Keeps text (atFunctionParens g) := by
  refine keeps_foresee ?_
  refine keeps_advance.seq <| keeps_isAtAny.bind fun _ _ => ?_
  split
  · exact .pure trivial
  · refine keeps_skipParamModifier.seq <| reads_token.bind fun _ _ => ?_
    split
    · exact .pure trivial
    · extract_lets -underBinder rest
      have hrest u : Keeps text (rest u) := by
        refine keeps_isAtAny.bind fun _ _ => ?_
        split
        · exact .pure trivial
        · refine keeps_accept.bind fun _ _ => ?_
          split
          · exact keeps_isAt
          · exact .pure trivial
      clear_value rest
      split
      · exact keeps_advance.seq <| hrest _
      · split
        · exact hg.binding.seq <| hrest _
        · exact .pure trivial

theorem keeps_functionType : Keeps text (functionType g) :=
  keeps_acceptWord.seq <| keeps_acceptWord.seq <|
    (keeps_optionalTypeParams hg).seq <| keeps_expect.seq <|
    (keeps_signatureParams hg).seq <| (keeps_resultType hg)

theorem keeps_typeReference : Keeps text (typeReference g) :=
  keeps_skipParamModifier.seq <|
    (keeps_entityName reads_anyName.keeps).seq <| (keeps_optionalTypeArgs hg)

theorem keeps_thisTest : Keeps text (thisTest g) := by
  refine reads_token.seq <| keeps_acceptWord.bind fun _ _ => ?_
  split
  · exact hg.type
  · exact .pure trivial

theorem keeps_wordType {word : String} : Keeps text (wordType g word) := by
  unfold wordType
  split
  · exact keeps_importType hg
  · exact keeps_advance.seq <| (keeps_thisTest hg)
  · refine keeps_advance.seq <| keeps_isAtWord.bind fun _ _ => ?_
    extract_lets -underBinder rest
    have hrest u : Keeps text (rest u) := keeps_optionalTypeArgs hg
    clear_value rest
    split
    · exact (keeps_importType hg).seq <| hrest _
    · exact (keeps_entityName reads_anyName.keeps).seq <| hrest _
  · exact keeps_advance
  · exact keeps_advance
  · extract_lets -underBinder named rest
    have hrest u : Keeps text (rest u) := by
      refine reads_ahead.bind fun _ _ => ?_
      split
      · exact keeps_advance.seq <| keeps_advance.seq <| (keeps_thisTest hg)
      · split
        · exact keeps_advance
        · exact keeps_typeReference hg
    clear_value rest
    split
    · exact reads_unexpected.fails
    · exact hrest _

/-- A type by its first token. -/
theorem keeps_atomType : Keeps text (atomType g) := by
  refine reads_token.bind fun _ _ => ?_
  split
  · exact keeps_advance
  · exact keeps_advance
  · exact keeps_advance
  · exact keeps_templateType hg
  · refine keeps_advance.seq <| reads_token.bind fun _ _ => ?_
    extract_lets -underBinder rest
    have hrest u : Keeps text (rest u) := keeps_advance
    clear_value rest
    split
    · exact hrest _
    · exact reads_unexpected.fails
  · refine keeps_atMappedType.bind fun _ _ => ?_
    split
    · exact keeps_mappedType hg
    · exact keeps_typeMembers hg
  · exact keeps_tuple hg
  · exact keeps_advance.seq <| hg.type.seq <| keeps_expect
  · exact keeps_wordType hg
  · exact reads_unexpected

theorem keeps_arrayType : Keeps text (arrayType g) := by
  refine (keeps_atomType hg).seq <|
    Reads.bind (P := fun _ => True) (keeps_collect ?_) fun _ _ => ?_
  · refine reads_token.seq <| keeps_accept.bind fun _ _ => ?_
    split
    · refine keeps_accept.bind fun _ _ => ?_
      extract_lets -underBinder rest
      have hrest u : Keeps text (rest u) := .pure trivial
      clear_value rest
      split
      · exact hrest _
      · exact hg.type.seq <| keeps_expect.seq <| hrest _
    · exact .pure trivial
  · exact .pure trivial

theorem keeps_inferBound : Keeps text (inferBound g) := by
  refine keeps_expectWord.seq <| hg.plainType.seq <|
    keeps_read.seq <| keeps_isAt.bind fun _ _ => ?_
  split
  · exact .pure trivial
  · exact .pure trivial

theorem keeps_operatorType : Keeps text (operatorType g) := by
  refine Reads.bind (P := fun _ => True) (keeps_collect ?_) fun _ _ => ?_
  · refine reads_token.bind fun _ _ => ?_
    split
    · exact keeps_advance.seq <| .pure trivial
    · exact .pure trivial
  · refine keeps_acceptWord.bind fun _ _ => ?_
    split
    · exact reads_anyName.seq <| (keeps_attempt (keeps_inferBound hg)).seq <|
        .pure trivial
    · exact keeps_acceptModifier.seq <| (keeps_arrayType hg)

theorem keeps_plainType : Keeps text (plainType g) := by
  refine reads_token.seq <| reads_ahead.bind fun _ _ => ?_
  extract_lets -underBinder rest
  have hrest u : Keeps text (rest u) := by
    unfold rest
    split
    · exact keeps_functionType hg
    · exact keeps_joined (keeps_joined (keeps_operatorType hg))
  clear_value rest
  split
  · exact hrest _
  · split
    · exact (keeps_atFunctionParens hg).seq <| hrest _
    · exact hrest _

theorem keeps_anyType : Keeps text (anyType g) := by
  refine Reads.inTypes ?_
  refine Reads.within ?_
  refine hg.plainType.seq <| reads_token.seq <|
    keeps_acceptWord.bind fun _ _ => ?_
  split
  · exact hg.plainType.within.seq <| keeps_expect.seq <|
      hg.type.seq <| keeps_expect.seq <| hg.type
  · exact .pure trivial

end Grammar

end RefSugar.Syntax.Types

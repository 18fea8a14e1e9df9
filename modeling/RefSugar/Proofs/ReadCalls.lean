import RefSugar.Proofs.ReadLiterals
import RefSugar.Syntax.Calls

/-! The readers of calls and of what hangs on them keep their place. -/
namespace RefSugar.Syntax.Calls

variable {e : Expr} {lo : Nat} {reach : Reach}

variable {text : List Char}

theorem keeps_mayBeAsync : Keeps text (mayBeAsync e) := by
  unfold mayBeAsync
  split
  · exact reads_get.seq <| .pure trivial
  · exact .pure trivial

theorem keeps_fieldName : Keeps text fieldName := by
  refine keeps_isAt.bind fun _ _ => ?_
  extract_lets -underBinder rest
  have hrest u : Keeps text (rest u) := reads_anyName.seq <| .pure trivial
  clear_value rest
  split
  · exact keeps_privateHash.seq <| hrest _
  · exact hrest _

theorem keeps_atOptionalLink : Keeps text atOptionalLink := by
  refine keeps_isAt.bind fun _ _ => ?_
  split
  · exact reads_ahead.seq <| .pure trivial
  · exact .pure trivial

theorem keeps_refusesSuper : Keeps text refusesSuper :=
  keeps_read.seq <| .pure trivial

theorem keeps_refuseNonNull {word : String} : Keeps text (refuseNonNull word) := by
  refine reads_token.seq <| keeps_read.bind fun _ _ => ?_
  split
  · exact keeps_advance.seq <| reads_fail
  · exact .pure trivial

section Grammar

variable {g : Grammar} (hg : g.Sited text)
include hg

theorem keeps_arrowTypeParams : Keeps text (arrowTypeParams g) := by
  refine hg.typeParams.seq <| keeps_read.bind fun _ _ => ?_
  split
  · exact reads_unexpected
  · exact .pure trivial

theorem reads_asyncGenericArrow (hlo : Cuts text lo) :
    ReadsAny text (SitedExpr text) (asyncGenericArrow g lo) := by
  refine (keeps_arrowTypeParams hg).seq <| keeps_expect.seq <|
    hg.params.bind fun params hparams => keeps_expect.seq <|
    keeps_isAt.bind fun _ _ => ?_
  extract_lets -underBinder rest
  have hrest u : ReadsAny text (SitedExpr text) (rest u) := by
    refine keeps_expect.bind fun _ _ => ?_
    extract_lets -underBinder patterns
    have hpatterns : ∀ p ∈ patterns, Sited text (.pattern p) := by
      intro p hp
      obtain ⟨⟨_, _⟩, hmem, rfl⟩ := List.mem_map.mp hp
      exact (hparams _ hmem).target
    exact (Functions.reads_arrowTail hg hlo hpatterns).bind fun b hb =>
      .pure (by simpa using hb)
  clear_value rest
  split
  · exact (Types.keeps_resultType hg).seq <| hrest _
  · exact hrest _

theorem reads_call (hlo : Cuts text lo) {link : Link} (he : SitedExpr text e) :
    Reads text (SitedExpr text) (call g lo link e) :=
  (Literals.reads_args hg).bind fun args hargs => (reads_spanFrom hlo).bind fun b hb =>
    .pure ⟨hb.2.1, hb.2, by simp +contextual [or_imp, he.2, hargs]⟩

theorem reads_tagged (hlo : Cuts text lo) (he : SitedExpr text e) :
    Reads text (SitedExpr text) (tagged g lo e) :=
  (Literals.reads_interpolations hg).bind fun parts hparts =>
    (reads_spanFrom hlo).bind fun b hb =>
    .pure ⟨hb.2.1, .inl hb.2.closes, by simp +contextual [or_imp, he.2, hparts]⟩

theorem reads_typedLink (hlo : Cuts text lo) (he : SitedExpr text e) :
    ReadsAny text (fun r => SitedExpr text r.1) (typedLink g lo reach e) := by
  refine keeps_mayBeAsync.bind fun _ _ => ?_
  extract_lets -underBinder rest
  have hrest u : ReadsAny text (fun r => SitedExpr text r.1) (rest u) := by
    refine hg.typeArgs.seq <| reads_token.bind fun _ _ => ?_
    split
    · exact (reads_call hg hlo he).bind fun b hb => .pure (by simpa using hb)
    · split
      · exact (reads_tagged hg hlo he).bind fun b hb => .pure (by simpa using hb)
      · split
        · exact (reads_spanFrom hlo).bind fun b hb =>
            .pure (by simpa using ⟨hb.2.1, hb.2, by simp [he.2]⟩)
        · exact .pure (by simp)
  clear_value rest
  split
  · refine (reads_asyncGenericArrow hg hlo).attempt.bind fun b hb => ?_
    split
    · have harrow := hb _ rfl
      exact .pure (by simpa using harrow)
    · exact hrest _
  · exact hrest _

theorem keeps_instantiation : Keeps text (instantiation g) := by
  refine hg.typeArgs.seq <| keeps_read.seq <|
    reads_token.bind fun _ _ => ?_
  split
  · exact .pure trivial
  · split
    · exact .pure trivial
    · exact .pure trivial

theorem reads_indexKey : Reads text (SitedExpr text) (indexKey g) :=
  hg.expression.allowIn.bind fun _ hkey => keeps_expect.seq <| .pure hkey

theorem reads_optionalLink (hlo : Cuts text lo) (he : SitedExpr text e) :
    Reads text (SitedExpr text) (optionalLink g lo reach e) := by
  refine keeps_read.bind fun _ _ => ?_
  extract_lets -underBinder typescript
  refine reads_ahead.bind fun _ _ => ?_
  split
  · exact keeps_advance.seq <| keeps_advance.seq <|
      (reads_indexKey hg).bind fun key hkey => (reads_spanFrom hlo).bind fun b hb =>
      .pure ⟨hb.2.1, hb.2, by simp [he.2, hkey.2]⟩
  · split
    · refine keeps_advance.seq <| keeps_isAt.bind fun _ _ => ?_
      extract_lets -underBinder rest
      have hrest u : Reads text (SitedExpr text) (rest u) := reads_call hg hlo he
      clear_value rest
      split
      · exact hg.typeArgs.seq <| hrest _
      · exact hrest _
    · exact keeps_expect.seq <| keeps_fieldName.seq <|
        (reads_spanFrom hlo).bind fun b hb => .pure ⟨hb.2.1, hb.2, by simp [he.2]⟩

theorem reads_typescriptLink (hlo : Cuts text lo) (he : SitedExpr text e) :
    ReadsAny text (fun r => SitedExpr text r.1) (typescriptLink g lo reach e) := by
  refine reads_token.bind fun _ _ => ?_
  split
  · exact keeps_advance.seq <| (reads_spanFrom hlo).bind fun b hb =>
      .pure (by simpa using ⟨hb.2.1, hb.2, by simp [he.2]⟩)
  · split
    · exact .pure (by simp)
    · extract_lets -underBinder joined
      have hjoined : ReadsAny text (fun r => SitedExpr text r.1) joined :=
        (reads_typedLink hg hlo he).within
      refine hjoined.attempt.bind fun b hb => ?_
      split
      · have hfound := hb _ rfl
        exact .pure (by simpa using hfound)
      · refine (keeps_attempt (keeps_instantiation hg)).bind fun _ _ => ?_
        split
        · exact (reads_spanFrom hlo).bind fun b hb =>
            .pure (by simpa using ⟨hb.2.1, hb.2, by simp [he.2]⟩)
        · exact .pure (by simp)

/-- One more link behind an expression, if one follows. -/
theorem reads_link (hlo : Cuts text lo) (he : SitedExpr text e) :
    ReadsAny text (fun r => SitedExpr text r.1) (link g lo reach e) := by
  refine keeps_read.bind fun _ _ => ?_
  extract_lets -underBinder rest
  have hrest u : ReadsAny text (fun r => SitedExpr text r.1) (rest u) := by
    refine reads_token.seq <| keeps_atOptionalLink.bind fun _ _ => ?_
    split
    · exact keeps_advance.seq <| (reads_optionalLink hg hlo he).bind fun b hb =>
        .pure (by simpa using hb)
    · split
      · exact keeps_advance.seq <| (reads_indexKey hg).bind fun key hkey =>
          (reads_spanFrom hlo).bind fun b hb =>
          .pure (by simpa using ⟨hb.2.1, hb.2, by simp [he.2, hkey.2]⟩)
      · split
        · exact (reads_call hg hlo he).bind fun b hb => .pure (by simpa using hb)
        · split
          · exact keeps_advance.seq <| keeps_fieldName.seq <|
              (reads_spanFrom hlo).bind fun b hb =>
              .pure (by simpa using ⟨hb.2.1, hb.2, by simp [he.2]⟩)
          · split
            · exact (reads_tagged hg hlo he).bind fun b hb => .pure (by simpa using hb)
            · exact .pure (by simp)
  clear_value rest
  split
  · refine (reads_typescriptLink hg hlo he).bind fun b hb => ?_
    split
    · have hfound := hb _ rfl
      exact .pure (by simpa using hfound)
    · exact hrest _
  · exact hrest _

theorem reads_links (hlo : Cuts text lo)
    (he : SitedExpr text e) : Reads text (SitedExpr text) (links g lo reach e) := by
  refine (Reads.iterate (P := fun r => SitedExpr text r.1) (fun r hr => ?_) he).bind
    fun _ hlast => .pure hlast
  dsimp only
  split
  · exact reads_link hg hlo hr
  · exact .pure (by simp)

/-- However `super` goes on. -/
theorem reads_superLink (hlo : Cuts text lo) :
    Reads text (SitedExpr text) (superLink g lo reach) := by
  refine keeps_refuseNonNull.seq <|
    keeps_atOptionalLink.bind fun isOptional _ => ?_
  extract_lets -underBinder rest
  have hrest u : Reads text (SitedExpr text) (rest u) := by
    unfold rest
    extract_lets -underBinder check
    have hcheck : Keeps text check := by
      refine keeps_refusesSuper.bind fun _ _ => ?_
      extract_lets -underBinder more
      have hmore u : Keeps text (more u) := by
        unfold more
        split
        · exact reads_failAt hlo
        · exact .pure trivial
      clear_value more
      split
      · exact (reads_failAt hlo).fails
      · exact hmore _
    clear_value check
    refine keeps_accept.bind fun _ _ => ?_
    split
    · exact (reads_indexKey hg).bind fun key hkey => hcheck.seq <|
        (reads_spanFrom hlo).bind fun b hb => .pure ⟨hb.2.1, .inl hb.2.closes, by simp [hkey.2]⟩
    · refine keeps_accept.bind fun _ _ => ?_
      split
      · refine keeps_isAt.bind fun isPrivate _ => keeps_fieldName.seq <|
          hcheck.bind fun _ _ => ?_
        extract_lets -underBinder more
        have hmore u : Reads text (SitedExpr text) (more u) :=
          (reads_spanFrom hlo).bind fun b hb => .pure ⟨hb.2.1, .inl hb.2.closes, by simp⟩
        clear_value more
        split
        · exact reads_fail.fails
        · exact hmore _
      · refine keeps_isAt.bind fun _ _ => ?_
        split
        · exact (Literals.reads_args hg).bind fun args hargs => (reads_spanFrom hlo).bind fun b hb =>
            .pure ⟨hb.2.1, hb.2, by simp +contextual [hargs]⟩
        · split
          · exact reads_fail
          · exact reads_fail
  clear_value rest
  split
  · refine keeps_advance.seq <| reads_ahead.bind fun next hnext =>
      keeps_read.bind fun _ _ => ?_
    split
    · refine keeps_advance.seq <| keeps_isAt.bind fun _ _ => ?_
      extract_lets -underBinder more
      have hmore u : Reads text (SitedExpr text) (more u) :=
        (Literals.reads_args hg).seq <| reads_fail.fails
      clear_value more
      split
      · exact hg.typeArgs.seq <| hmore _
      · exact hmore _
    · split
      · exact keeps_advance.seq <| hrest _
      · exact hrest _
  · exact hrest _

theorem reads_importCall (hlo : Cuts text lo) :
    Reads text (SitedExpr text) (importCall g lo) := by
  refine keeps_refuseNonNull.seq <| keeps_isAt.bind fun _ _ => ?_
  extract_lets -underBinder rest
  have hrest u : Reads text (SitedExpr text) (rest u) := by
    refine (Literals.reads_args hg).bind fun args hargs => ?_
    extract_lets -underBinder more
    have hmore u : Reads text (SitedExpr text) (more u) :=
      (reads_spanFrom hlo).bind fun b hb =>
        .pure ⟨hb.2.1, hb.2, by simp +contextual [hargs]⟩
    clear_value more
    split
    · exact (reads_failAt hlo).fails
    · exact hmore _
  clear_value rest
  split
  · exact hrest _
  · exact reads_fail.fails

theorem reads_importLink (hlo : Cuts text lo) :
    Reads text (SitedExpr text) (importLink g lo) := by
  refine keeps_accept.bind fun _ _ => ?_
  extract_lets -underBinder rest
  have hrest u : Reads text (SitedExpr text) (rest u) := reads_importCall hg hlo
  clear_value rest
  split
  · refine reads_anyName.bind fun _ _ => ?_
    split
    · exact (reads_spanFrom hlo).bind fun b hb => .pure ⟨hb.2.1, .inl hb.2.closes, by simp⟩
    · split
      · exact hrest _
      · exact reads_unexpected.fails
  · exact hrest _

theorem reads_keywordLinks (hlo : Cuts text lo) :
    Reads text (SitedExpr text) (keywordLinks g lo reach) := by
  refine keeps_isAtWord.seq <| keeps_advance.bind fun _ _ => ?_
  extract_lets -underBinder rest
  have hrest : ∀ u, SitedExpr text u → Reads text (SitedExpr text) (rest u) := by
    intro first hfirst
    exact reads_links hg hlo hfirst
  clear_value rest
  split
  · exact (reads_superLink hg hlo).bind fun first hfirst => hrest _ hfirst
  · exact (reads_importLink hg hlo).bind fun first hfirst => hrest _ hfirst

/-- `new` with or without arguments; without them the expression ends where its callee does. -/
theorem reads_construction (hlo : Cuts text lo) :
    Reads text (SitedExpr text) (construction g lo) := by
  refine keeps_advance.seq <| keeps_accept.bind fun _ _ => ?_
  split
  · refine keeps_acceptWord.bind fun _ _ => ?_
    extract_lets -underBinder rest
    have hrest u : Reads text (SitedExpr text) (rest u) :=
      (reads_spanFrom hlo).bind fun b hb =>
        reads_links hg hlo ⟨hb.2.1, .inl hb.2.closes, by simp⟩
    clear_value rest
    split
    · exact hrest _
    · exact reads_unexpected.fails
  · refine hg.member.bind fun callee hcallee => ?_
    split
    · exact .pure hcallee
    · extract_lets -underBinder rest
      have hrest u : Reads text (SitedExpr text) (rest u) := by
        refine (keeps_whenTyped keeps_isAtAny).bind fun _ _ => ?_
        extract_lets -underBinder more
        have hmore u : Reads text (SitedExpr text) (more u) := by
          refine keeps_isAt.bind fun _ _ => ?_
          split
          · refine (Literals.reads_args hg).bind fun args hargs => ?_
            extract_lets -underBinder parts
            have hparts : ∀ e ∈ parts, Sited text (.expr e) := by
              intro e he
              obtain ⟨i, hi, hie⟩ := List.mem_filterMap.mp he
              exact (hargs i hi).child (by simp [hie])
            exact (reads_spanFrom hlo).bind fun b hb =>
              reads_links hg hlo 
                ⟨hb.2.1, .inl hb.2.closes, by simp +contextual [or_imp, hcallee.2, hparts]⟩
          · exact (reads_spanFrom hlo).bind fun b hb =>
              .pure ⟨hb.2.1, .inl hb.2.closes, by simp [hcallee.2]⟩
        clear_value more
        split
        · refine (keeps_attempt ?_).bind fun _ _ => ?_
          · exact (Types.keeps_plainTypeArgs hg).seq <| keeps_isAt.seq <|
              .pure trivial
          · exact hmore _
        · exact hmore _
      clear_value rest
      split
      · exact (reads_failAt hcallee.1).fails
      · exact hrest _

theorem reads_member {primary : Reader Expr} (hprimary : Reads text (SitedExpr text) primary) :
    Reads text (SitedExpr text) (member g primary) := by
  refine reads_here.bind fun lo hlo => reads_token.bind fun _ _ => ?_
  split
  · exact reads_construction hg hlo
  · split
    · exact reads_keywordLinks hg hlo
    · refine hprimary.bind fun e he => ?_
      split
      · exact .pure he
      · refine (keeps_whenTyped keeps_isAtAny).bind fun _ _ => ?_
        extract_lets -underBinder rest
        have hrest u : Reads text (SitedExpr text) (rest u) := by
          unfold rest
          extract_lets -underBinder more
          have hmore : ∀ u, SitedExpr text u → Reads text (SitedExpr text) (more u) := by
            intro e he
            exact reads_links hg hlo he
          clear_value more
          split
          · exact (reads_spanFrom hlo).bind fun b hb => hmore _ ⟨hb.2.1, hb.2, by simp [he.2]⟩
          · exact hmore _ he
        clear_value rest
        split
        · exact (keeps_attempt (keeps_instantiation hg)).seq <| hrest _
        · exact hrest _

/-- An expression with its links. -/
theorem reads_leftHand : Reads text (SitedExpr text) (leftHand g) := by
  refine reads_here.bind fun lo hlo => reads_token.bind fun _ _ => ?_
  split
  · exact reads_keywordLinks hg hlo
  · refine hg.member.bind fun callee hcallee => ?_
    split
    · exact .pure hcallee
    · refine (keeps_whenTyped keeps_isAtAny).bind fun _ _ => ?_
      extract_lets -underBinder rest
      have hrest u : Reads text (SitedExpr text) (rest u) := by
        refine keeps_isAt.bind fun _ _ => ?_
        split
        · exact (reads_call hg hlo hcallee).bind fun b hb => reads_links hg hlo hb
        · exact .pure hcallee
      clear_value rest
      split
      · refine (keeps_attempt ?_).bind fun _ _ => ?_
        · exact (Types.keeps_plainTypeArgs hg).seq <| keeps_isAt.seq <|
            .pure trivial
        · exact hrest _
      · exact hrest _

theorem reads_decorator : Reads text (SitedExpr text) (decorator g) := by
  refine keeps_expect.seq <| keeps_accept.bind fun _ _ => ?_
  extract_lets -underBinder rest
  have hrest : ∀ u, SitedExpr text u → Reads text (SitedExpr text) (rest u) := by
    intro e he
    refine (keeps_whenTyped keeps_isAt).bind fun _ _ => ?_
    extract_lets -underBinder more
    have hmore u : Reads text (SitedExpr text) (more u) := by
      refine keeps_isAt.bind fun _ _ => ?_
      split
      · exact reads_call hg he.1 he
      · exact .pure he
    clear_value more
    split
    · exact hg.typeArgs.seq <| hmore _
    · exact hmore _
  clear_value rest
  split
  · exact hg.expression.bind fun e he => keeps_expect.seq <| hrest _ he
  · exact reads_here.bind fun lo hlo => reads_nameOr.bind fun name hname =>
      (reads_links hg hlo hname.sited).bind fun e he => hrest _ he

theorem reads_decorators {mayExport : Bool} :
    ReadsAll text (SitedExpr text) (decorators g mayExport) := by
  refine reads_here.bind fun lo hlo =>
    (Reads.collect (P := SitedExpr text) ?_).bind fun found hfound => ?_
  · refine keeps_isAt.bind fun _ _ => ?_
    split
    · exact (reads_decorator hg).bind fun b hb => .pure (by simpa using hb)
    · exact .pure (by simp)
  · refine keeps_read.seq <| keeps_isAtWord.bind fun _ _ => ?_
    extract_lets -underBinder rest more
    have hrest u : ReadsAll text (SitedExpr text) (rest u) := .pure hfound
    clear_value rest
    split
    · have hmore u : ReadsAll text (SitedExpr text) (more u) := by
        unfold more
        split
        · exact (reads_failAt hlo).fails
        · exact hrest _
      clear_value more
      split
      · exact reads_fail.fails
      · exact hmore _
    · exact hrest _

end Grammar

end RefSugar.Syntax.Calls

import RefSugar.Proofs.ReadCalls
import RefSugar.Syntax.Markup

/-! The readers of markup keep their place. -/
namespace RefSugar.Syntax.Markup

variable {text : List Char}

theorem scanContent_scans (pos : Nat) (cs : List Char) :
    Lexer.ScansAt ⟨pos, cs⟩ (scanContent pos cs) := by
  unfold scanContent
  split
  · exact ⟨.refl _, rfl⟩
  · exact ⟨.byte rfl pos _, .inr ⟨_, rfl⟩⟩
  · exact ⟨(Cursor.Follows.byte rfl pos _).trans (.byte rfl _ _), .inr ⟨_, rfl⟩⟩
  · exact ⟨.byte rfl pos _, .inr ⟨_, rfl⟩⟩
  · exact ⟨Lexer.skipWhile_follows _ pos _, trivial⟩

theorem scanContent_completes (pos : Nat) (cs : List Char) :
    Cursor.Completes ⟨pos, cs⟩ (scanContent pos cs).2.pos := by
  unfold scanContent
  split
  · exact (Cursor.Plainly.refl _).completes
  · exact (Cursor.Ends.byte (by decide) rfl pos _).completes
  · exact (Cursor.Ends.step '<' (.byte (by decide) rfl (pos + 1) _)).completes
  · exact (Cursor.Ends.byte (by decide) rfl pos _).completes
  · refine (Lexer.skipWhile_ends (fun c hc => ?_) pos _).completes
    rw [Bool.and_eq_false_iff, bne_eq_false_iff_eq, bne_eq_false_iff_eq] at hc
    rcases hc with rfl | rfl <;> decide

theorem keeps_advanceContent : Keeps text advanceContent := by
  intro m s hs
  obtain ⟨hfollows, hkind⟩ := scanContent_scans s.token.hi s.token.rest
  have hinto := Cursor.Follows.trans hs.token.stop hfollows
  have hcloses : Closes text (scanContent s.token.hi s.token.rest).2.pos :=
    .of_completes hs.token.stop hs.token.closes (scanContent_completes _ _)
  exact ⟨trivial, ⟨hs.token.stop.cuts, hs.token.closes, fun _ => .inl rfl, hs.token.stop,
    hs.token.closes, hinto, hcloses, hkind⟩, hs.token.stop.cuts, hs.token.closes⟩

theorem keeps_advanceIn {content : Bool} : Keeps text (advanceIn content) := by
  unfold advanceIn
  split
  · exact keeps_advanceContent
  · exact keeps_advance

/-- A bracket is taken apart from the signs it was scanned with. -/
theorem keeps_atTagEnd : Keeps text atTagEnd := by
  refine ReadsAt.reads (.token_bind fun t ht _ => ?_)
  split
  · rename_i p hkind
    split
    · rename_i hsign
      rw [Bool.and_eq_true, beq_iff_eq] at hsign
      have hcomma : p ≠ "," := by
        rintro rfl
        exact absurd hsign.1 (by decide)
      refine ReadsAt.bind (P := fun _ => True) (keeps_rescan fun t' _ heq => ?_) fun _ _ => keeps_isAt
      subst heq
      obtain ⟨rest, htext, hfollows⟩ := ht.behind_sign hkind hcomma hsign.1 rfl
      exact ⟨⟨hfollows, .inr (by rw [htext]; exact ⟨rest, rfl⟩)⟩,
        Token.completes_byte htext (by decide) rfl⟩
    · exact keeps_isAt.at
  · exact (Reads.pure trivial).at

theorem keeps_needTagEnd : Keeps text needTagEnd := by
  refine keeps_atTagEnd.bind fun _ _ => ?_
  split
  · exact .pure trivial
  · exact reads_token.seq <| reads_fail

/-- A word with hyphens in it stands where another word starts. -/
theorem stands_hyphened {t : Token} (ht : t.Sited text) (hne : t.text ≠ []) :
    let stop := Lexer.skipWhile (fun c => Text.isExtender c || c == '-') t.start t.text
    Stands text ⟨String.ofList (Lexer.front t.text stop), ⟨t.lo, stop.pos⟩⟩ ∧
      Cursor.Into text stop ∧ Closes text stop.pos := by
  intro stop
  obtain ⟨raw, htext, hpos, _, _⟩ :=
    Lexer.skipWhile_spec (fun c => Text.isExtender c || c == '-') t.start t.text
  have hfront : Lexer.front t.text stop = raw := by
    rw [Lexer.front, htext]
    simp [stop]
  have hwrites : Writes raw (String.ofList raw) :=
    ⟨fun _ => String.toList_ofList, fun c hc => .inr (by rw [String.toList_ofList, hc]),
      .inl String.toList_ofList⟩
  obtain ⟨front, rest, hbefore, hstart, hrest⟩ := ht.start
  obtain rfl := hrest.resolve_right hne
  dsimp only at hbefore hstart
  have hends : Cursor.Ends ⟨t.start, t.text⟩ stop.pos :=
    Lexer.skipWhile_ends (fun c hc => (Bool.or_eq_false_iff.mp hc).1) t.start t.text
  refine ⟨⟨ht.cuts_lo, front, raw, stop.text, ?_, ?_, ?_, ?_⟩,
    Cursor.Follows.trans ht.start (Lexer.skipWhile_follows _ _ _),
    .of_completes ht.start ht.start_closes hends.completes⟩
  · rw [hbefore, List.append_assoc, ← htext]
  · have hwidth : Text.width front = t.start := by omega
    rw [hwidth]
    exact ht.opens hne
  · dsimp only [stop]
    omega
  · rw [hfront]
    exact hwrites

/-- The name of an element or an attribute stands in the text, hyphens included. -/
theorem reads_name :
    Reads text (fun id => Stands text id ∧ Closes text id.span.hi) name := by
  refine ReadsAt.reads (.token_bind fun t ht _ => ?_)
  have hname (hne : t.text ≠ []) :
      ReadsAt text (· = t) (fun id => Stands text id ∧ Closes text id.span.hi) (do
        let stop := Lexer.skipWhile (fun c => Text.isExtender c || c == '-') t.start t.text
        let word := String.ofList (Lexer.front t.text stop)
        retake (.word word none) stop
        advance
        return ⟨word, ⟨t.lo, stop.pos⟩⟩) := by
    obtain ⟨hstands, hinto, hcloses⟩ := stands_hyphened ht hne
    rintro m s hs rfl
    exact ⟨⟨hstands, hcloses⟩, Mode.settle_sited (Lexer.next_sited hinto hcloses), hinto.cuts,
      hcloses⟩
  have hfilled {raw : List Char} (hat : Lexer.WordAt ⟨t.start, t.text⟩ raw ⟨t.hi, t.rest⟩) :
      t.text ≠ [] := by
    have htext : t.text = raw ++ t.rest := hat.1
    rw [htext]
    exact List.append_ne_nil_of_left_ne_nil hat.2.2.filled _
  have hkind := ht.kind
  split
  · rename_i heq
    rw [heq] at hkind
    obtain ⟨raw, hat, _⟩ := hkind
    exact hname (hfilled hat)
  · rename_i heq
    rw [heq] at hkind
    obtain ⟨raw, hat, _⟩ := hkind
    exact hname (hfilled hat)
  · exact reads_unexpected.at

theorem keeps_elementName : Keeps text elementName := by
  refine reads_name.seq <| keeps_accept.bind fun _ _ => ?_
  split
  · exact reads_name.seq <| .pure trivial
  · refine Reads.iterate (fun _ _ => keeps_accept.bind fun _ _ => ?_) trivial
    split
    · exact reads_name.seq <| .pure (by simp)
    · exact .pure (by simp)

/-- The text of an attribute, from its quote on. -/
theorem keeps_quoted {quote : Char} (hquote : quote.utf8Size = 1)
    (hsign : Text.isExtender quote = false) :
    ReadsAt text (fun t => t.text.head? = some quote) (fun _ => True) quoted := by
  have hsigil : quote ≠ '$' := by
    rintro rfl
    exact absurd hsign (by decide)
  refine .token_bind fun t ht hhead => ?_
  split
  · rename_i c rest htext
    obtain rfl : c = quote := by
      rw [htext, List.head?_cons, Option.some.injEq] at hhead
      exact hhead
    extract_lets stop
    have hbehind : Cursor.Follows ⟨t.start, t.text⟩ stop := by
      rw [htext]
      exact (Cursor.Follows.byte hquote t.start rest).trans (Lexer.skipWhile_follows _ _ _)
    have hstep {p : Nat} (h : Cursor.Ends ⟨t.start + 1, rest⟩ p) :
        Cursor.Ends ⟨t.start, t.text⟩ p := by
      rw [htext]
      exact .step c (hquote.symm ▸ h)
    have hends : Cursor.Ends ⟨t.start, t.text⟩ stop.pos := by
      refine hstep (Lexer.skipWhile_ends (fun d hd => ?_) (t.start + 1) rest)
      rw [bne_eq_false_iff_eq] at hd
      rw [hd, hsign]
    have hstring {d : Cursor} (hd : Cursor.Follows ⟨t.start, t.text⟩ d)
        (hcompletes : Cursor.Completes ⟨t.start, t.text⟩ d.pos) :
        ReadsAt text (· = t) (fun _ => True) (retake .string d) :=
      keeps_rescan fun t' _ heq => heq ▸ ⟨⟨hd, trivial⟩, hcompletes⟩
    split
    · rename_i last next after hstop
      split
      · exact hstring hbehind hends.completes
      · have hlast : last = c := by
          obtain ⟨_, _, _, _, hend⟩ := Lexer.skipWhile_spec (· != c) (t.start + 1) rest
          simpa using hend last (by rw [← List.head?_cons, ← hstop])
        have hclosed : Cursor.Ends ⟨t.start, t.text⟩ (stop.pos + 1) := by
          refine hstep ?_
          obtain ⟨raw, hraw, hpos, _, _⟩ := Lexer.skipWhile_spec (· != c) (t.start + 1) rest
          have hbyte := Cursor.Ends.byte hsigil hquote stop.pos (next :: after)
          rw [← hlast, ← hstop, hpos] at hbyte
          rw [hraw, hpos]
          exact .skip raw hbyte
        refine hstring (hbehind.trans ?_) hclosed.completes
        obtain ⟨pos, cs⟩ := stop
        dsimp only at hstop ⊢
        rw [hstop, hlast]
        exact .byte hquote pos _
    · exact hstring hbehind hends.completes
  · exact (Reads.pure trivial).at

theorem reads_lastBracket {nested : Bool} {lo : Nat} (hlo : Cuts text lo) :
    Reads text (Span.Sited text) (lastBracket nested lo) :=
  keeps_needTagEnd.seq <| reads_token.bind fun _ hb =>
    keeps_advanceIn.seq <| .pure ⟨hlo, hb.stop.cuts, hb.closes⟩

section Grammar

variable {g : Grammar} (hg : g.Sited text)
include hg

theorem reads_braced {maySpread : Bool} : ReadsAny text (SitedExpr text) (braced g maySpread) := by
  refine keeps_advance.seq <| keeps_isAt.bind fun _ _ => ?_
  split
  · exact .pure (by simp)
  · extract_lets -underBinder rest
    have hrest u : ReadsAny text (SitedExpr text) (rest u) := by
      refine hg.expression.bind fun e he => keeps_isAt.bind fun _ _ => ?_
      extract_lets -underBinder more
      have hmore u : ReadsAny text (SitedExpr text) (more u) :=
        .pure (by simpa using he)
      clear_value more
      split
      · exact hmore _
      · exact reads_token.seq <| reads_fail.fails
    clear_value rest
    split
    · exact keeps_accept.seq <| hrest _
    · exact hrest _

theorem reads_attrValue {name : AttrName}
    (hname : ∀ braced value, Written text (.attr (.named name braced value))) :
    Reads text (fun a => Sited text (.attr a)) (attrValue g name) := by
  refine ReadsAt.reads (.token_bind fun t ht _ => ?_)
  split
  · exact ((reads_braced hg).bind fun e he => keeps_advance.seq <|
      .pure ⟨hname _ _, by simpa using fun e' he' => (he e' he').2⟩).at
  · split
    · exact ((hg.element _).bind fun e he => .pure ⟨hname _ _, by simpa using he.2⟩).at
    · split
      · rename_i hquote
        rw [Bool.or_eq_true, beq_iff_eq, beq_iff_eq] at hquote
        have hquoted : ReadsAt text (· = t) (fun _ => True) quoted := by
          obtain hquote | hquote := hquote
          · exact (keeps_quoted rfl (by decide)).of_pre fun _ heq => heq ▸ hquote
          · exact (keeps_quoted rfl (by decide)).of_pre fun _ heq => heq ▸ hquote
        exact hquoted.bind fun _ _ => keeps_advance.seq <| .pure ⟨hname _ _, by simp⟩
      · exact reads_fail.at

theorem reads_attr : Reads text (fun a => Sited text (.attr a)) (attr g) := by
  refine keeps_accept.bind fun _ _ => ?_
  split
  · exact keeps_expect.seq <| hg.assignment.bind fun e he =>
      keeps_expect.seq <| .pure ⟨trivial, by simp [he.2]⟩
  · refine reads_name.bind fun first hfirst => keeps_accept.bind fun _ _ => ?_
    extract_lets -underBinder rest
    have hrest : ∀ attrName, (∀ braced value, Written text (.attr (.named attrName braced value))) →
        Reads text (fun a => Sited text (.attr a)) (rest attrName) := by
      intro attrName hname
      refine keeps_accept.bind fun _ _ => ?_
      split
      · exact (reads_attrValue hg hname).within
      · exact .pure ⟨hname _ _, by simp⟩
    clear_value rest
    split
    · exact reads_name.seq <| (reads_spanFrom hfirst.1.cuts_lo).seq <|
        hrest _ fun _ _ => trivial
    · exact hrest _ fun _ _ => hfirst

theorem reads_child : ReadsAny text (fun a => ∀ e ∈ a, SitedExpr text e) (child g) := by
  refine reads_token.bind fun _ _ => ?_
  split
  · exact keeps_advanceContent.seq <| .pure (by simp)
  · exact (reads_braced hg).bind fun e he => keeps_advanceContent.seq <|
      .pure (by simpa using he)
  · exact (hg.element _).bind fun b hb => .pure (by simpa using hb)
  · exact .pure (by simp)

theorem reads_children : ReadsAll text (SitedExpr text) (children g) := by
  have hchild : ReadsAny text (fun o => ∀ e ∈ o, SitedExpr text e)
      (tryCatch (child g) fun _ => pure none) :=
    (reads_child hg).tryCatch fun _ _ => .pure (by simp)
  refine hchild.collect.bind fun found hfound => .pure fun e he => ?_
  obtain ⟨o, ho, heq⟩ := List.mem_filterMap.mp he
  exact hfound o ho e heq

theorem reads_content {nested : Bool} {lo : Nat} (hlo : Cuts text lo) {opened : Option String} :
    Reads text (fun r => (∀ e ∈ r.1, SitedExpr text e) ∧ r.2.Sited text)
      (content g nested lo opened) := by
  refine keeps_advanceContent.seq <|
    (reads_children hg).bind fun found hfound => keeps_expect.bind fun _ _ => ?_
  split
  · exact (reads_lastBracket hlo).bind fun b hb => .pure ⟨hfound, hb⟩
  · refine reads_here.bind fun start hstart => keeps_elementName.seq <|
      (reads_lastBracket hlo).bind fun span hspan => ?_
    extract_lets -underBinder rest
    have hrest u : Reads text (fun r => (∀ e ∈ r.1, SitedExpr text e) ∧ r.2.Sited text)
        (rest u) :=
      .pure ⟨hfound, hspan⟩
    clear_value rest
    split
    · exact (reads_failAt hstart).fails
    · exact hrest _

/-- An element ends at its last bracket. -/
theorem reads_element {nested : Bool} : Reads text (SitedExpr text) (element g nested) := by
  refine reads_here.bind fun lo hlo => keeps_expect.seq <|
    keeps_atTagEnd.bind fun _ _ => ?_
  split
  · exact (reads_content hg hlo).bind fun ⟨found, span⟩ ⟨hfound, hspan⟩ =>
      .pure ⟨hspan.1, hspan, by simp +contextual [hfound]⟩
  · refine keeps_elementName.bind fun opened _ =>
      (keeps_whenTyped keeps_isAt).bind fun _ _ => ?_
    extract_lets -underBinder rest
    have hrest u : Reads text (SitedExpr text) (rest u) := by
      refine (Reads.collect (P := fun a => Sited text (.attr a)) ?_).bind fun attrs hattrs => ?_
      · refine keeps_atTagEnd.seq <| keeps_isAt.bind fun _ _ => ?_
        split
        · exact .pure (by simp)
        · exact (reads_attr hg).bind fun b hb => .pure (by simpa using hb)
      · refine keeps_accept.bind fun _ _ => ?_
        split
        · exact (reads_lastBracket hlo).bind fun b hb =>
            .pure ⟨hb.1, hb, by simp +contextual [hattrs]⟩
        · exact (reads_content hg hlo).bind fun ⟨found, span⟩ ⟨hfound, hspan⟩ =>
            .pure ⟨hspan.1, hspan, by simp +contextual [or_imp, forall_and, hattrs, hfound]⟩
    clear_value rest
    split
    · refine (keeps_attempt ?_).bind fun _ _ => ?_
      · exact hg.typeArgs.seq <| .pure trivial
      · exact hrest _
    · exact hrest _

end Grammar

end RefSugar.Syntax.Markup

import Mathlib
import RefSugar.Proofs.Conflicts
import RefSugar.Proofs.TagScan

/-! The search for scripts by byte offsets: one loop finds the next script tag and skips comments,
another one takes the region behind each tag. Both cut the document at offsets that they compute.
Main statement: no cut ever falls inside a character, the loops end, and the regions they find lie
in order between a tag and a closing tag. -/
namespace RefSugar.Document

open Text

inductive SearchFault where
  /-- The text was to be cut at an offset that is not between two characters. -/
  | offBoundary (pos : Nat)
  /-- A loop went on for more rounds than it was given. -/
  | unfinished
  deriving DecidableEq, Repr

def cutFrom (source : List Char) (pos : Nat) : Except SearchFault (List Char) :=
  match splitAt? pos source with
  | none => .error (.offBoundary pos)
  | some (_, rest) => .ok rest

def cutBetween (source : List Char) (lo hi : Nat) : Except SearchFault (List Char) :=
  match slice? lo hi source with
  | none => .error (.offBoundary lo)
  | some text => .ok text

def offsetOf? (mark cs : List Char) : Option Nat :=
  (splitAtFirst mark cs).map fun parts => width parts.1

def findTag (source : List Char) : Nat → Nat → Except SearchFault (Option Nat)
  | 0, _ => .error .unfinished
  | rounds + 1, pos => do
    let rest ← cutFrom source pos
    match offsetOf? openTag rest with
    | none => return none
    | some tag =>
      match (offsetOf? commentStart rest).filter (· < tag) with
      | some comment =>
        let inside ← cutFrom rest comment
        match offsetOf? commentEnd inside with
        | none => return none
        | some stop => findTag source rounds (pos + comment + stop + 3)
      | none =>
        let start := pos + tag
        let behind ← cutFrom source (start + 7)
        if behind.head?.any (fun c => c == '>' || isSpace c) then return some start
        else findTag source rounds (start + 7)

def searchFrom (source : List Char) : Nat → Nat → Except SearchFault (List Region)
  | 0, _ => .error .unfinished
  | rounds + 1, pos => do
    match ← findTag source (source.length + 1) pos with
    | none => return []
    | some found =>
      let tag ← cutFrom source found
      match offsetOf? ['>'] tag with
      | none => return []
      | some offset =>
        let tagEnd := found + offset
        let attrs ← cutBetween source (found + 7) tagEnd
        let start := tagEnd + 1
        if isSelfClosing attrs then searchFrom source rounds start
        else
          let content ← cutFrom source start
          match offsetOf? closeTag content with
          | none => return []
          | some offset =>
            let stop := start + offset
            let more ← searchFrom source rounds (stop + 9)
            if start < stop then
              return { start, stop
                       dialect := Dialect.ofAttr (attributeValue? attrs "lang")
                       setup := hasAttribute attrs "setup" } :: more
            else return more

section Cuts

variable {source front text : List Char}

theorem cutFrom_eq (front : List Char) {pos : Nat} (h : source = front ++ text)
    (hpos : width front = pos) : cutFrom source pos = .ok text := by
  unfold cutFrom
  rw [h, ← hpos, splitAt?_append]

theorem cutBetween_eq (front text : List Char) {lo hi : Nat} {middle : List Char}
    (h : source = front ++ middle ++ text) (hlo : width front = lo)
    (hhi : width front + width middle = hi) : cutBetween source lo hi = .ok middle := by
  unfold cutBetween
  rw [slice?_eq_some_iff.mpr ⟨front, text, h, hlo, hhi⟩]

/-- A mark of one character is not found in front of its first place. -/
theorem offsetOf?_append {c : Char} (hc : c ∉ front) :
    offsetOf? [c] (front ++ text) = (offsetOf? [c] text).map (width front + ·) := by
  induction front with
  | nil => simp
  | cons d front ih =>
    obtain ⟨hd, hfront⟩ : c ≠ d ∧ c ∉ front := by simpa using hc
    have hnext : offsetOf? [c] (d :: (front ++ text)) =
        (offsetOf? [c] (front ++ text)).map (d.utf8Size + ·) := by
      unfold offsetOf?
      rw [splitAtFirst, if_neg (by simp [hd]), Option.map_map, Option.map_map]
      rfl
    rw [List.cons_append, hnext, ih hfront, Option.map_map, width_cons]
    congr 1
    funext n
    exact (Nat.add_assoc _ _ _).symm

end Cuts

section Tags

variable {source : List Char}

/-- Without a tag there are no regions, also behind comments. -/
theorem scan_eq_nil {text : List Char} (h : ¬ openTag <:+: text) (pos : Nat) :
    scan pos text = [] := by
  -- a comment is passed at once, so that the induction is on the length
  induction hlength : text.length using Nat.strong_induction_on generalizing text pos with
  | _ n ih =>
    cases text with
    | nil => rfl
    | cons c cs =>
      have hscript : ¬ startsScript (c :: cs) = true := by
        intro hscript
        obtain ⟨rest, hrest⟩ := startsScript_prefix hscript
        exact h (hrest ▸ (List.prefix_append openTag rest).isInfix)
      by_cases hcomment : commentStart <+: c :: cs
      · rw [scan_comment hcomment]
        cases hsplit : splitAtFirst commentEnd (c :: cs) with
        | none => rfl
        | some parts =>
          obtain ⟨inside, behind⟩ := parts
          have hshorter := splitAtFirst_length hsplit
          have hmark : commentEnd.length = 3 := rfl
          apply ih behind.length (by omega) _ _ rfl
          intro hwithin
          apply h
          rw [splitAtFirst_eq_append hsplit]
          exact hwithin.trans (List.suffix_append _ _).isInfix
      · rw [scan_other hcomment hscript]
        apply ih cs.length (by rw [List.length_cons] at hlength; omega) _ _ rfl
        exact fun hwithin => h (hwithin.trans (List.suffix_cons c cs).isInfix)

/-- What the search for a tag comes to from the end of `front` on: there is none, and no region
either, or it stands behind `passed`, and the regions are those from there on. -/
def TagFound (front text : List Char) (result : Option Nat) : Prop :=
  match result with
  | none => scan (width front) text = []
  | some found => ∃ passed rest, text = passed ++ openTag ++ rest ∧
      found = width front + width passed ∧ startsScript (openTag ++ rest) = true ∧
      scan (width front) text = scan found (openTag ++ rest)

/-- A search that has passed some text goes on behind it. -/
theorem TagFound.behind {front passed text : List Char} {result : Option Nat}
    (h : TagFound (front ++ passed) text result)
    (hscan : scan (width front) (passed ++ text) = scan (width (front ++ passed)) text) :
    TagFound front (passed ++ text) result := by
  cases result with
  | none => exact hscan.trans h
  | some found =>
    obtain ⟨skipped, rest, rfl, hfound, hstarts, hsame⟩ := h
    refine ⟨passed ++ skipped, rest, by simp, ?_, hstarts, hscan.trans hsame⟩
    rw [hfound, width_append, width_append]
    omega

/-- No comment starts in front of the tag if none was found there. -/
theorem nowhere_comment {before behind : List Char}
    (h : (offsetOf? commentStart (before ++ openTag ++ behind)).filter (· < width before) = none) :
    Nowhere (commentStart <+: ·) before (openTag ++ behind) := by
  cases hsplit : splitAtFirst commentStart (before ++ openTag ++ behind) with
  | none =>
    rw [splitAtFirst_eq_none_iff (by decide), List.append_assoc] at hsplit
    exact nowhere_of_not_infix hsplit
  | some parts =>
    obtain ⟨front, rest⟩ := parts
    -- the first comment starts behind `before`, or where it ends
    have hle : width before ≤ width front := by
      rw [offsetOf?, hsplit] at h
      simpa [Option.filter] using h
    obtain ⟨htext, hnowhere⟩ := (splitAtFirst_eq_some_iff (by decide)).mp hsplit
    rw [List.append_assoc, List.append_assoc] at htext
    obtain ⟨more, rfl, hbehind⟩ := append_split_of_width_le htext hle
    rw [hbehind]
    exact (nowhere_append.mp hnowhere).1

/-- In the name of a tag with a longer name neither a comment nor a script starts. -/
theorem nowhere_openTag {behind : List Char}
    (h : ¬ behind.head?.any (fun c => c == '>' || isSpace c) = true) :
    Nowhere (commentStart <+: ·) openTag behind ∧
      Nowhere (startsScript · = true) openTag behind := by
  have hstart : ¬ startsScript (openTag ++ behind) = true := by
    intro hscript
    unfold startsScript at hscript
    rw [List.drop_left, Bool.and_eq_true] at hscript
    exact h hscript.2
  have htail (mark : List Char) :
      Nowhere (('<' :: mark) <+: ·) ['s', 'c', 'r', 'i', 'p', 't'] behind :=
    nowhere_of_not_mem (by decide)
  have hcomment := not_comment_of_openTag behind
  rw [openTag_eq] at hstart hcomment ⊢
  rw [commentStart_eq] at hcomment ⊢
  refine ⟨⟨hcomment, htail _⟩, hstart, nowhere_startsScript ?_⟩
  rw [openTag_eq]
  exact htail _

section Rounds

variable {front text before behind : List Char} {rounds : Nat}

theorem findTag_none (hsource : source = front ++ text) (htag : splitAtFirst openTag text = none) :
    findTag source (rounds + 1) (width front) = .ok none := by
  rw [findTag, cutFrom_eq front hsource rfl]
  simp only [bind, Except.bind, offsetOf?, htag]
  rfl

/-- Of a tag and a comment in front of it, the comment is passed first. -/
theorem findTag_comment {skipped rest : List Char} (hsource : source = front ++ text)
    (htag : splitAtFirst openTag text = some (before, behind))
    (hcomment : splitAtFirst commentStart text = some (skipped, rest))
    (hlt : width skipped < width before) :
    findTag source (rounds + 1) (width front) =
      match splitAtFirst commentEnd (commentStart ++ rest) with
      | none => .ok none
      | some (inside, _) =>
        findTag source rounds (width front + width skipped + width inside + 3) := by
  have hfirst : (offsetOf? commentStart text).filter (· < width before) = some (width skipped) := by
    simp [offsetOf?, hcomment, hlt]
  have hcut : cutFrom text (width skipped) = .ok (commentStart ++ rest) := by
    apply cutFrom_eq skipped _ rfl
    rw [splitAtFirst_eq_append hcomment, List.append_assoc]
  have hoffset : offsetOf? openTag text = some (width before) := by rw [offsetOf?, htag]; rfl
  rw [findTag, cutFrom_eq front hsource rfl]
  simp only [bind, Except.bind, hoffset, hfirst, hcut]
  rw [offsetOf?]
  cases splitAtFirst commentEnd (commentStart ++ rest) <;> rfl

/-- Without a comment in front of it, the tag decides. -/
theorem findTag_tag (hsource : source = front ++ text)
    (htag : splitAtFirst openTag text = some (before, behind))
    (hcomment : (offsetOf? commentStart text).filter (· < width before) = none) :
    findTag source (rounds + 1) (width front) =
      if behind.head?.any (fun c => c == '>' || isSpace c) then
        .ok (some (width front + width before))
      else findTag source rounds (width front + width before + 7) := by
  have hcut : cutFrom source (width front + width before + 7) = .ok behind := by
    apply cutFrom_eq (front ++ before ++ openTag)
    · rw [hsource, splitAtFirst_eq_append htag]
      simp
    · rw [width_append, width_append]
      rfl
  have hoffset : offsetOf? openTag text = some (width before) := by rw [offsetOf?, htag]; rfl
  rw [findTag, cutFrom_eq front hsource rfl]
  simp only [bind, Except.bind, hoffset, hcomment, hcut]
  rfl

end Rounds

/-- Up to a comment that opens in front of the next tag, nothing stops the scan. -/
theorem scan_up_to_comment {text before behind skipped rest : List Char} (pos : Nat)
    (htext : text = before ++ openTag ++ behind)
    (hnowhere : Nowhere (openTag <+: ·) before (openTag ++ behind))
    (hopens : text = skipped ++ commentStart ++ rest)
    (hfree : Nowhere (commentStart <+: ·) skipped (commentStart ++ rest))
    (hlt : width skipped < width before) :
    scan pos text = scan (pos + width skipped) (commentStart ++ rest) := by
  rw [List.append_assoc] at hopens htext
  obtain ⟨more, rfl, hmore⟩ := append_split_of_width_le (hopens.symm.trans htext) (Nat.le_of_lt hlt)
  have hfree' := (nowhere_append.mp hnowhere).1
  rw [← hmore] at hfree'
  rw [hopens]
  exact scan_append hfree (nowhere_startsScript hfree')

/-- The loop for the next tag ends, and finds what the scan finds. -/
theorem findTag_spec (rounds : Nat) (front text : List Char) (hsource : source = front ++ text)
    (hrounds : text.length < rounds) :
    ∃ result, findTag source rounds (width front) = .ok result ∧ TagFound front text result := by
  induction rounds generalizing front text with
  | zero => omega
  | succ rounds ih =>
    -- what is passed in a round leaves fewer characters than rounds
    have next (passed rest : List Char) (htext : text = passed ++ rest) (hpassed : passed ≠ [])
        (hscan : scan (width front) (passed ++ rest) = scan (width front + width passed) rest) :
        ∃ result, findTag source rounds (width front + width passed) = .ok result ∧
          TagFound front text result := by
      have hpos := List.length_pos_of_ne_nil hpassed
      obtain ⟨result, hresult, hfound⟩ := ih (front ++ passed) rest (by simp [hsource, htext]) (by
        rw [htext, List.length_append] at hrounds
        omega)
      rw [width_append] at hresult
      rw [← width_append] at hscan
      exact ⟨result, hresult, htext ▸ hfound.behind hscan⟩
    cases htag : splitAtFirst openTag text with
    | none =>
      refine ⟨none, findTag_none hsource htag, scan_eq_nil ?_ _⟩
      exact (splitAtFirst_eq_none_iff (by decide)).mp htag
    | some parts =>
      obtain ⟨before, behind⟩ := parts
      obtain ⟨htext, hnowhere⟩ := (splitAtFirst_eq_some_iff (by decide)).mp htag
      cases hfirst : (offsetOf? commentStart text).filter (· < width before) with
      | some comment =>
        obtain ⟨hoffset, hlt⟩ := Option.filter_eq_some_iff.mp hfirst
        obtain ⟨⟨skipped, rest⟩, hsplit, rfl⟩ := Option.map_eq_some_iff.mp hoffset
        obtain ⟨hopens, hfree⟩ := (splitAtFirst_eq_some_iff (by decide)).mp hsplit
        rw [findTag_comment hsource htag hsplit (of_decide_eq_true hlt)]
        have hskip := scan_up_to_comment (width front) htext hnowhere hopens hfree
          (of_decide_eq_true hlt)
        rw [scan_comment (List.prefix_append commentStart rest)] at hskip
        cases hend : splitAtFirst commentEnd (commentStart ++ rest) with
        | none =>
          rw [hend] at hskip
          exact ⟨none, rfl, hskip⟩
        | some parts =>
          obtain ⟨inside, after⟩ := parts
          have hpassed : text = skipped ++ inside ++ commentEnd ++ after := by
            rw [hopens, List.append_assoc, splitAtFirst_eq_append hend]
            simp
          have hwidth : width front + width (skipped ++ inside ++ commentEnd) =
              width front + width skipped + width inside + 3 := by
            have hmark : width commentEnd = 3 := rfl
            simp only [width_append]
            omega
          rw [hend] at hskip
          dsimp only at hskip ⊢
          rw [← hwidth] at hskip ⊢
          apply next _ after hpassed
          · exact List.append_ne_nil_of_right_ne_nil _ (by decide)
          · rw [← hpassed]
            exact hskip
      | none =>
        -- the tag comes first; it counts only if its name ends there
        have hfree : Nowhere (commentStart <+: ·) before (openTag ++ behind) :=
          nowhere_comment (htext ▸ hfirst)
        rw [findTag_tag hsource htag hfirst]
        by_cases hname : behind.head?.any (fun c => c == '>' || isSpace c) = true
        · rw [if_pos hname]
          have hstarts : startsScript (openTag ++ behind) = true := by
            unfold startsScript
            rw [List.drop_left, hname, Bool.and_true]
            exact List.isPrefixOf_iff_prefix.mpr (List.prefix_append _ _)
          refine ⟨some (width front + width before), rfl, before, behind, htext, rfl, hstarts, ?_⟩
          rw [htext, List.append_assoc]
          exact scan_append hfree (nowhere_startsScript hnowhere)
        · rw [if_neg hname]
          obtain ⟨hcommentTag, hscriptTag⟩ := nowhere_openTag hname
          have hwidth : width front + width (before ++ openTag) =
              width front + width before + 7 := by
            rw [width_append, ← Nat.add_assoc]
            rfl
          rw [← hwidth]
          apply next _ behind htext
          · exact List.append_ne_nil_of_right_ne_nil _ (by decide)
          · apply scan_append
            · exact nowhere_append.mpr ⟨hfree, hcommentTag⟩
            · exact nowhere_append.mpr ⟨nowhere_startsScript hnowhere, hscriptTag⟩

/-- What a round of the loop for the regions makes of a tag. -/
theorem searchFrom_tag {rounds pos : Nat} {before rest : List Char}
    (hsource : source = before ++ openTag ++ rest)
    (htag : findTag source (source.length + 1) pos = .ok (some (width before))) :
    searchFrom source (rounds + 1) pos =
      match splitAtFirst ['>'] rest with
      | none => .ok []
      | some (attrs, content) =>
        let start := width before + 8 + width attrs
        if isSelfClosing attrs then searchFrom source rounds start
        else
          match splitAtFirst closeTag content with
          | none => .ok []
          | some (body, _) =>
            (searchFrom source rounds (start + width body + 9)).map fun more =>
              if body.isEmpty then more else Region.ofScript start attrs body :: more := by
  have hcut : cutFrom source (width before) = .ok (openTag ++ rest) :=
    cutFrom_eq before (by rw [hsource, List.append_assoc]) rfl
  rw [searchFrom, htag]
  simp only [bind, Except.bind, hcut]
  rw [offsetOf?_append (by decide), offsetOf?]
  cases hattrs : splitAtFirst ['>'] rest with
  | none => rfl
  | some parts =>
    obtain ⟨attrs, content⟩ := parts
    have hopen : width openTag = 7 := rfl
    have hrest := splitAtFirst_eq_append hattrs
    have hbetween : cutBetween source (width before + 7) (width before + (7 + width attrs)) =
        .ok attrs := by
      apply cutBetween_eq (before ++ openTag) ('>' :: content)
      · rw [hsource, hrest]
        simp
      · rw [width_append, hopen]
      · rw [width_append, hopen, Nat.add_assoc]
    have hstart : width before + (7 + width attrs) + 1 = width before + 8 + width attrs := by omega
    have hcontent : cutFrom source (width before + 8 + width attrs) = .ok content := by
      apply cutFrom_eq (before ++ openTag ++ attrs ++ ['>']) _ (width_tag before attrs)
      rw [hsource, hrest]
      simp
    simp only [Option.map_some, hopen, hbetween, hstart, hcontent, offsetOf?]
    split
    · rfl
    · cases hbody : splitAtFirst closeTag content with
      | none => rfl
      | some parts =>
        obtain ⟨body, behind⟩ := parts
        simp only [Option.map_some]
        cases searchFrom source rounds (width before + 8 + width attrs + width body + 9) with
        | error fault => rfl
        | ok more =>
          cases body with
          | nil => simp [pure, Except.pure, Except.map]
          | cons c body =>
            have hfilled := c.utf8Size_pos
            dsimp only
            rw [if_pos (by rw [width_cons]; omega)]
            rfl

/-- The loop for the regions ends, and finds what the scan finds. -/
theorem searchFrom_spec (rounds : Nat) (front text : List Char) (hsource : source = front ++ text)
    (hrounds : text.length < rounds) :
    searchFrom source rounds (width front) = .ok (scan (width front) text) := by
  induction rounds generalizing front text with
  | zero => omega
  | succ rounds ih =>
    have hlength : text.length < source.length + 1 := by
      rw [hsource, List.length_append]
      omega
    obtain ⟨result, hresult, hfound⟩ := findTag_spec (source.length + 1) front text hsource hlength
    cases result with
    | none =>
      rw [searchFrom, hresult, show scan (width front) text = [] from hfound]
      rfl
    | some found =>
      obtain ⟨passed, rest, rfl, hpassed, hstarts, hscan⟩ := hfound
      rw [← width_append] at hpassed
      subst hpassed
      have hsource' : source = front ++ passed ++ openTag ++ rest := by simp [hsource]
      rw [hscan, scan_tag hstarts, scanTag, searchFrom_tag hsource' hresult]
      have hopenLength : openTag.length = 7 := rfl
      simp only [List.length_append, hopenLength] at hrounds
      cases hattrs : splitAtFirst ['>'] rest with
      | none => rfl
      | some parts =>
        obtain ⟨attrs, content⟩ := parts
        have hrest := splitAtFirst_eq_append hattrs
        have hshorter := splitAtFirst_length hattrs
        dsimp only
        split
        · rw [← width_tag]
          exact ih _ content (by rw [hsource', hrest]; simp) (by omega)
        · cases hbody : splitAtFirst closeTag content with
          | none => rfl
          | some parts =>
            obtain ⟨body, behind⟩ := parts
            have hcontent := splitAtFirst_eq_append hbody
            have hshorter' := splitAtFirst_length hbody
            dsimp only
            rw [← width_block, ih _ behind (by rw [hsource', hrest, hcontent]; simp) (by omega)]
            rfl

end Tags

/-- The region is a filled slice of the document between a tag and the first closing tag. -/
structure Region.Enclosed (source : List Char) (r : Region) : Prop where
  filled : r.start < r.stop
  inBounds : r.stop ≤ width source
  startsBetween : isBoundary r.start source = true
  stopsBetween : isBoundary r.stop source = true
  opened : slice? (r.start - 1) r.start source = some ['>']
  closed : slice? r.stop (r.stop + 9) source = some closeTag
  unclosed : ∃ body, slice? r.start r.stop source = some body ∧ ¬ closeTag <:+: body

section Enclosed

variable {source : List Char}

/-- The region of a script stands between its tags. -/
theorem Region.enclosed_ofScript (before behind : List Char) {attrs body : List Char}
    (hsource : source = before ++ ['>'] ++ body ++ closeTag ++ behind) (hbody : body ≠ [])
    (hclose : ¬ closeTag <:+: body) :
    (Region.ofScript (width (before ++ ['>'])) attrs body).Enclosed source := by
  have hmark : width (before ++ ['>']) = width before + 1 := width_append _ _
  have hcloseWidth : width closeTag = 9 := rfl
  have hfilled : 0 < width body := by
    rw [Nat.pos_iff_ne_zero]
    exact (width_eq_zero_iff body).not.mpr hbody
  have hstart : isBoundary (width (before ++ ['>'])) source = true :=
    isBoundary_iff.mpr ⟨before ++ ['>'], body ++ closeTag ++ behind, by simp [hsource], rfl⟩
  have hstop : isBoundary (width (before ++ ['>']) + width body) source = true :=
    isBoundary_iff.mpr
      ⟨before ++ ['>'] ++ body, closeTag ++ behind, by simp [hsource], width_append _ _⟩
  exact
    { filled := Nat.lt_add_of_pos_right hfilled
      inBounds := isBoundary_le_width hstop
      startsBetween := hstart
      stopsBetween := hstop
      opened := by
        rw [slice?_eq_some_iff]
        refine ⟨before, body ++ closeTag ++ behind, by simp [hsource], ?_, hmark.symm⟩
        dsimp only [Region.ofScript]
        omega
      closed := by
        rw [slice?_eq_some_iff]
        refine ⟨before ++ ['>'] ++ body, behind, hsource, width_append _ _, ?_⟩
        rw [width_append _ body, hcloseWidth]
        rfl
      unclosed := by
        refine ⟨body, ?_, hclose⟩
        rw [slice?_eq_some_iff]
        exact ⟨before ++ ['>'], closeTag ++ behind, by simp [hsource], rfl, rfl⟩ }

/-- A step of the scan stops it, passes some text, or takes a region out of its tags. -/
theorem scan_step (front text : List Char) :
    scan (width front) text = [] ∨
      (∃ passed rest, text = passed ++ rest ∧ passed ≠ [] ∧
        scan (width front) text = scan (width (front ++ passed)) rest) ∨
      ∃ attrs body behind, text = openTag ++ attrs ++ ['>'] ++ body ++ closeTag ++ behind ∧
        '>' ∉ attrs ∧ body ≠ [] ∧ ¬ closeTag <:+: body ∧
        scan (width front) text = Region.ofScript (width front + 8 + width attrs) attrs body ::
          scan (width front + 8 + width attrs + width body + 9) behind := by
  cases text with
  | nil => exact .inl rfl
  | cons c cs =>
    by_cases hcomment : commentStart <+: c :: cs
    · rw [scan_comment hcomment]
      cases hsplit : splitAtFirst commentEnd (c :: cs) with
      | none => exact .inl rfl
      | some parts =>
        obtain ⟨inside, behind⟩ := parts
        refine .inr (.inl ⟨inside ++ commentEnd, behind, splitAtFirst_eq_append hsplit, ?_, ?_⟩)
        · exact List.append_ne_nil_of_right_ne_nil _ (by decide)
        · rw [width_append, width_append, ← Nat.add_assoc]
          rfl
    by_cases hscript : startsScript (c :: cs) = true
    · obtain ⟨rest, hrest⟩ := startsScript_prefix hscript
      rw [hrest] at hscript ⊢
      rw [scan_tag hscript, scanTag]
      cases htag : splitAtFirst ['>'] rest with
      | none => exact .inl rfl
      | some parts =>
        obtain ⟨attrs, content⟩ := parts
        obtain ⟨hcontent, hbefore⟩ := (splitAtFirst_eq_some_iff (by decide)).mp htag
        dsimp only
        split
        · refine .inr (.inl
            ⟨openTag ++ attrs ++ ['>'], content, by simp [hcontent], by simp, ?_⟩)
          rw [← width_tag, List.append_assoc, List.append_assoc, List.append_assoc]
        · cases hbody : splitAtFirst closeTag content with
          | none => exact .inl rfl
          | some parts =>
            obtain ⟨body, behind⟩ := parts
            obtain ⟨htext, hnowhere⟩ := (splitAtFirst_eq_some_iff (by decide)).mp hbody
            dsimp only
            split
            · -- an empty script is passed like other text
              rename_i hempty
              obtain rfl := List.isEmpty_iff.mp hempty
              refine .inr (.inl
                ⟨openTag ++ attrs ++ ['>'] ++ [] ++ closeTag, behind, ?_, by simp, ?_⟩)
              · simp [hcontent, htext]
              · rw [← width_block]
                simp only [List.append_assoc]
            · rename_i hfilled
              refine .inr (.inr ⟨attrs, body, behind, ?_, ?_, ?_, ?_, rfl⟩)
              · simp [hcontent, htext]
              · rw [← List.singleton_infix_iff]
                exact not_infix_of_nowhere (by decide) hbefore
              · simpa using hfilled
              · exact not_infix_of_nowhere (by decide) hnowhere
    · refine .inr (.inl ⟨[c], cs, rfl, List.cons_ne_nil _ _, ?_⟩)
      rw [scan_other hcomment hscript, width_append]
      rfl

/-- From any place on, the regions are enclosed and have two tags in between. -/
theorem scan_enclosed (front text : List Char) (hsource : source = front ++ text) :
    (∀ r ∈ scan (width front) text, width front + 8 ≤ r.start ∧ r.Enclosed source) ∧
      (scan (width front) text).Pairwise fun r q => r.stop + 17 ≤ q.start := by
  induction hlength : text.length using Nat.strong_induction_on generalizing front text with
  | _ n ih =>
    rcases scan_step front text with
      hnil | ⟨passed, rest, rfl, hpassed, hscan⟩ |
      ⟨attrs, body, behind, rfl, -, hfilled, hclose, hscan⟩
    · rw [hnil]
      simp
    · have hshorter := List.length_pos_of_ne_nil hpassed
      rw [List.length_append] at hlength
      have hrest := ih rest.length (by omega) (front ++ passed) rest (by simp [hsource]) rfl
      rw [hscan]
      refine ⟨fun r hr => ⟨?_, (hrest.1 r hr).2⟩, hrest.2⟩
      have hstart := (hrest.1 r hr).1
      rw [width_append] at hstart
      omega
    · have hopenLength : openTag.length = 7 := rfl
      simp only [List.length_append] at hlength
      have hmore := ih behind.length (by omega)
        (front ++ openTag ++ attrs ++ ['>'] ++ body ++ closeTag) behind (by simp [hsource]) rfl
      rw [width_block] at hmore
      have hregion :
          (Region.ofScript (width front + 8 + width attrs) attrs body).Enclosed source := by
        rw [← width_tag]
        apply Region.enclosed_ofScript (front ++ openTag ++ attrs) behind _ hfilled hclose
        simp [hsource]
      rw [hscan]
      constructor
      · intro r hr
        rcases List.mem_cons.mp hr with rfl | hr
        · exact ⟨Nat.le_add_right _ _, hregion⟩
        · have hstart := (hmore.1 r hr).1
          exact ⟨by omega, (hmore.1 r hr).2⟩
      · refine List.pairwise_cons.mpr ⟨fun q hq => ?_, hmore.2⟩
        have hstart := (hmore.1 q hq).1
        dsimp only [Region.ofScript]
        omega

end Enclosed

end RefSugar.Document

namespace RefSugar.Transform

open Document

variable {o : Options} {filename : String} {source : List Char}

/-- A fold that fails has failed at one of its steps. -/
theorem foldlM_error {ε α β : Type} {f : β → α → Except ε β} {all : List α} {init : β} {err : ε}
    (h : all.foldlM f init = .error err) : ∃ a ∈ all, ∃ b, f b a = .error err := by
  induction all generalizing init with
  | nil => cases h
  | cons a all ih =>
    rw [List.foldlM_cons] at h
    cases hstep : f init a with
    | error fault =>
      rw [hstep] at h
      obtain rfl : fault = err := Except.error.inj h
      exact ⟨a, List.mem_cons_self, init, hstep⟩
    | ok b =>
      rw [hstep] at h
      obtain ⟨a', ha', b', hfault⟩ := ih h
      exact ⟨a', List.mem_cons_of_mem a ha', b', hfault⟩

theorem splice_error {edits : EditSet} {err : TransformError}
    (h : splice o filename source edits = .error err) : ∃ cause, err = .edit cause := by
  unfold splice at h
  split at h
  · cases h
  · split at h
    · rename_i cause _
      exact ⟨cause, (Except.error.inj h).symm⟩
    · cases h

/-- The regions of a file lie in it. -/
theorem transformFile_ne_regionOutOfBounds (start stop : Nat) :
    transformFile o filename source ≠ .error (.regionOutOfBounds start stop) := by
  intro h
  unfold transformFile at h
  cases hregions : regionsOf? filename source with
  | none =>
    rw [hregions] at h
    cases h
  | some regions =>
    rw [hregions] at h
    unfold transformRegions at h
    simp only [bind, Except.bind] at h
    cases hfold : regions.foldlM (region o filename source) {} with
    | error err =>
      rw [hfold] at h
      obtain rfl := Except.error.inj h
      obtain ⟨r, hr, p, hfault⟩ := foldlM_error hfold
      rcases @region_outcomes o filename source regions hregions r hr p with
        ⟨u, -, hok⟩ | ⟨-, hok⟩ | ⟨text, fault, -, -, -, hparse⟩
      · rw [hok] at hfault
        cases hfault
      · rw [hok] at hfault
        cases hfault
      · rw [hparse] at hfault
        cases hfault
    | ok p =>
      rw [hfold] at h
      dsimp only at h
      cases hsplice : splice o filename source (p.finalEdits o) with
      | error err =>
        rw [hsplice] at h
        obtain rfl := Except.error.inj h
        obtain ⟨cause, hcause⟩ := splice_error hsplice
        cases hcause
      | ok t =>
        rw [hsplice] at h
        cases h

/-- The search by offsets ends without a cut inside a character and finds the script regions. They
are enclosed by their tags, two tags apart, and all of them lie in the document. -/
theorem scriptRegions_searched_enclosed (source : List Char) :
    searchFrom source (source.length + 1) 0 = .ok (scriptRegions source) ∧
      (∀ r ∈ scriptRegions source, r.Enclosed source) ∧
      (scriptRegions source).Pairwise (fun r q => r.stop + 17 ≤ q.start) ∧
      ∀ o filename start stop,
        transformFile o filename source ≠ .error (.regionOutOfBounds start stop) := by
  have hscan := @scan_enclosed source [] source rfl
  refine ⟨?_, fun r hr => (hscan.1 r hr).2, hscan.2, ?_⟩
  · exact searchFrom_spec (source.length + 1) [] source rfl (Nat.lt_succ_self _)
  · exact fun o filename => transformFile_ne_regionOutOfBounds

end RefSugar.Transform

import Mathlib
import RefSugar.Proofs.Regions

/-! The scan of a document for its scripts, without a bound on its steps. A mark is found at its
first occurrence, what holds no mark is passed, and at a comment or a tag the scan goes on behind
it. -/
namespace RefSugar.Document

open Text

def commentStart : List Char := "<!--".toList

def commentEnd : List Char := "-->".toList

theorem commentStart_eq : commentStart = ['<', '!', '-', '-'] := by decide

theorem openTag_eq : openTag = ['<', 's', 'c', 'r', 'i', 'p', 't'] := by decide

theorem width_tag (before attrs : List Char) :
    width (before ++ openTag ++ attrs ++ ['>']) = width before + 8 + width attrs := by
  have hopen : width openTag = 7 := rfl
  have hmark : width ['>'] = 1 := rfl
  simp only [width_append]
  omega

theorem width_block (before attrs body : List Char) :
    width (before ++ openTag ++ attrs ++ ['>'] ++ body ++ closeTag) =
      width before + 8 + width attrs + width body + 9 := by
  have hclose : width closeTag = 9 := rfl
  rw [width_append, width_append _ body, width_tag, hclose]

/-- The property holds of no place in the first of two texts that follow each other. -/
def Nowhere (P : List Char → Prop) : List Char → List Char → Prop
  | [], _ => True
  | c :: a, b => ¬ P (c :: a ++ b) ∧ Nowhere P a b

section Places

variable {P Q : List Char → Prop} {a b c : List Char}

theorem nowhere_append : Nowhere P (a ++ b) c ↔ Nowhere P a (b ++ c) ∧ Nowhere P b c := by
  induction a with
  | nil => simp [Nowhere]
  | cons x a ih => simp [Nowhere, ih, and_assoc]

theorem Nowhere.imp (h : Nowhere P a b) (himp : ∀ t, Q t → P t) : Nowhere Q a b := by
  induction a with
  | nil => trivial
  | cons x a ih => exact ⟨fun hq => h.1 (himp _ hq), ih h.2⟩

end Places

section Leftmost

variable {mark cs front behind : List Char}

/-- A mark is found where it occurs and does not occur before. -/
theorem splitAtFirst_eq_some_iff (hmark : mark ≠ []) :
    splitAtFirst mark cs = some (front, behind) ↔
      cs = front ++ mark ++ behind ∧ Nowhere (mark <+: ·) front (mark ++ behind) := by
  induction cs generalizing front with
  | nil =>
    simp [splitAtFirst, hmark]
  | cons c cs ih =>
    rw [splitAtFirst]
    by_cases hleads : mark <+: c :: cs
    · -- the mark stands right here, so that a longer front would have passed it
      rw [if_pos (List.isPrefixOf_iff_prefix.mpr hleads)]
      obtain ⟨rest, hrest⟩ := hleads
      constructor
      · intro h
        obtain ⟨rfl, rfl⟩ := Prod.mk.inj (Option.some.inj h)
        refine ⟨?_, trivial⟩
        rw [← hrest, List.drop_left, List.nil_append]
      · rintro ⟨hcs, hnowhere⟩
        cases front with
        | nil =>
          rw [hcs]
          simp
        | cons d front =>
          refine absurd ⟨rest, ?_⟩ hnowhere.1
          rw [hrest, hcs]
          simp
    · have hnot : ¬ mark.isPrefixOf (c :: cs) = true := by
        rw [List.isPrefixOf_iff_prefix]
        exact hleads
      rw [if_neg hnot]
      constructor
      · intro h
        obtain ⟨⟨front', behind'⟩, hsplit, heq⟩ := Option.map_eq_some_iff.mp h
        obtain ⟨rfl, rfl⟩ := Prod.mk.inj heq
        obtain ⟨rfl, hnowhere⟩ := ih.mp hsplit
        refine ⟨by simp, ?_, hnowhere⟩
        simpa using hleads
      · rintro ⟨hcs, hnowhere⟩
        cases front with
        | nil =>
          refine absurd ⟨behind, ?_⟩ hleads
          rw [hcs]
          simp
        | cons d front =>
          obtain ⟨rfl, hrest⟩ := List.cons.inj hcs
          have hsplit := ih.mpr ⟨hrest, hnowhere.2⟩
          rw [hsplit]
          rfl

/-- A mark is not found only where it does not occur. -/
theorem splitAtFirst_eq_none_iff (hmark : mark ≠ []) :
    splitAtFirst mark cs = none ↔ ¬ mark <:+: cs := by
  induction cs with
  | nil => simp [splitAtFirst, hmark]
  | cons c cs ih =>
    rw [splitAtFirst, List.infix_cons_iff]
    by_cases hleads : mark <+: c :: cs
    · rw [if_pos (List.isPrefixOf_iff_prefix.mpr hleads)]
      simp [hleads]
    · have hnot : ¬ mark.isPrefixOf (c :: cs) = true := by
        rw [List.isPrefixOf_iff_prefix]
        exact hleads
      rw [if_neg hnot]
      simp [hleads, ih]

theorem nowhere_of_not_infix (h : ¬ mark <:+: front ++ behind) :
    Nowhere (mark <+: ·) front behind := by
  induction front with
  | nil => trivial
  | cons c front ih =>
    refine ⟨fun hleads => h hleads.isInfix, ih fun hwithin => h ?_⟩
    exact hwithin.trans (List.infix_cons_iff.mpr (.inr (List.infix_refl _)))

theorem not_infix_of_nowhere (hmark : mark ≠ []) (h : Nowhere (mark <+: ·) front behind) :
    ¬ mark <:+: front := by
  induction front with
  | nil => simpa using hmark
  | cons c front ih =>
    rw [List.infix_cons_iff]
    rintro (hleads | hwithin)
    · exact h.1 (hleads.trans (List.prefix_append _ _))
    · exact ih h.2 hwithin

theorem nowhere_of_not_mem {c : Char} {tail : List Char} (hc : c ∉ front) :
    Nowhere ((c :: tail) <+: ·) front behind := by
  induction front with
  | nil => trivial
  | cons d front ih =>
    obtain ⟨hd, hfront⟩ : c ≠ d ∧ c ∉ front := by simpa using hc
    exact ⟨fun hleads => hd (List.cons_prefix_cons.mp hleads).1, ih hfront⟩

/-- A mark whose first character does not come again cannot reach into a text that starts with that
character. -/
theorem nowhere_of_head {c : Char} {tail : List Char} (hc : c ∉ tail)
    (hfront : ¬ (c :: tail) <:+: front) (hbehind : behind = [] ∨ behind.head? = some c) :
    Nowhere ((c :: tail) <+: ·) front behind := by
  induction front with
  | nil => trivial
  | cons d front ih =>
    constructor
    · -- a mark that starts here ends in `front`, or reaches into `behind`
      rintro ⟨rest, hrest⟩
      rcases List.append_eq_append_iff.mp hrest with ⟨more, hmore, -⟩ | ⟨reach, htail, hreach⟩
      · exact hfront ⟨[], more, by rw [List.nil_append, hmore]⟩
      · cases reach with
        | nil =>
          rw [List.append_nil] at htail
          exact hfront (htail ▸ List.infix_refl _)
        | cons x reach =>
          -- the mark would hold the first character of `behind`, and that one again
          obtain rfl : x = c := by
            rcases hbehind with hnil | hhead
            · simp [hnil] at hreach
            · simpa [hreach] using hhead
          obtain ⟨-, rfl⟩ := List.cons.inj htail
          exact hc (List.mem_append_right _ List.mem_cons_self)
    · apply ih
      intro hwithin
      exact hfront (hwithin.trans (List.infix_cons_iff.mpr (.inr (List.infix_refl _))))

end Leftmost

section Steps

theorem splitAtFirst_length {mark cs front behind : List Char}
    (h : splitAtFirst mark cs = some (front, behind)) :
    behind.length + mark.length ≤ cs.length := by
  rw [splitAtFirst_eq_append h]
  simp only [List.length_append]
  omega

/-- More steps than there are characters change nothing. -/
theorem regionsFrom_eq (fuel fuel' pos : Nat) (text : List Char) (h : text.length ≤ fuel)
    (h' : text.length ≤ fuel') : regionsFrom fuel pos text = regionsFrom fuel' pos text := by
  -- every branch goes on with a part of the characters behind the first one
  induction fuel generalizing fuel' pos text with
  | zero =>
    obtain rfl : text = [] := List.eq_nil_of_length_eq_zero (by omega)
    cases fuel' <;> rfl
  | succ fuel ih =>
    cases text with
    | nil => cases fuel' <;> rfl
    | cons c cs =>
      cases fuel' with
      | zero => simp at h'
      | succ fuel' =>
        rw [List.length_cons] at h h'
        have hcs : cs.length ≤ fuel := by omega
        have hcs' : cs.length ≤ fuel' := by omega
        have hnext (pos : Nat) (rest : List Char) (hrest : rest.length ≤ cs.length) :
            regionsFrom fuel pos rest = regionsFrom fuel' pos rest :=
          ih fuel' pos rest (by omega) (by omega)
        rw [regionsFrom, regionsFrom]
        dsimp only
        split
        · split
          · rfl
          · rename_i front behind hsplit
            have hlength := splitAtFirst_length hsplit
            exact hnext _ behind (by simp at hlength; omega)
        · split
          · split
            · rfl
            · rename_i attrs content htag
              have hlength := splitAtFirst_length htag
              have hopen : openTag.length = 7 := rfl
              simp only [List.length_drop, List.length_cons, List.length_nil] at hlength
              split
              · exact hnext _ content (by omega)
              · split
                · rfl
                · rename_i body behind hbody
                  have hlength' := splitAtFirst_length hbody
                  rw [hnext _ behind (by omega)]
          · exact hnext _ cs (Nat.le_refl _)

def scan (pos : Nat) (text : List Char) : List Region :=
  regionsFrom text.length pos text

theorem scriptRegions_eq_scan (source : List Char) : scriptRegions source = scan 0 source := rfl

theorem regionsFrom_eq_scan {fuel pos : Nat} {text : List Char} (h : text.length ≤ fuel) :
    regionsFrom fuel pos text = scan pos text :=
  regionsFrom_eq fuel text.length pos text h (Nat.le_refl _)

/-- The region of a script with these attributes, whose text starts at an offset. -/
def Region.ofScript (start : Nat) (attrs body : List Char) : Region :=
  { start
    stop := start + width body
    dialect := Dialect.ofAttr (attributeValue? attrs "lang")
    setup := hasAttribute attrs "setup" }

/-- What the scan makes of what follows the name of a script tag at an offset. -/
def scanTag (pos : Nat) (rest : List Char) : List Region :=
  match splitAtFirst ['>'] rest with
  | none => []
  | some (attrs, content) =>
    let start := pos + 8 + width attrs
    if isSelfClosing attrs then scan start content
    else
      match splitAtFirst closeTag content with
      | none => []
      | some (body, behind) =>
        let more := scan (start + width body + 9) behind
        if body.isEmpty then more else Region.ofScript start attrs body :: more

variable {pos : Nat} {text rest : List Char}

theorem scan_nil (pos : Nat) : scan pos [] = [] := rfl

/-- A comment is passed, and one that does not end hides all that follows. -/
theorem scan_comment (h : commentStart <+: text) :
    scan pos text =
      match splitAtFirst commentEnd text with
      | none => []
      | some (inside, behind) => scan (pos + width inside + 3) behind := by
  cases text with
  | nil => simp [commentStart_eq] at h
  | cons c cs =>
    have hstart : "<!--".toList.isPrefixOf (c :: cs) = true := List.isPrefixOf_iff_prefix.mpr h
    change regionsFrom (cs.length + 1) pos (c :: cs) = _
    rw [regionsFrom]
    dsimp only
    rw [if_pos hstart]
    change (match splitAtFirst commentEnd (c :: cs) with
      | none => _
      | some (front, behind) => _) = _
    cases hsplit : splitAtFirst commentEnd (c :: cs) with
    | none => rfl
    | some parts =>
      obtain ⟨inside, behind⟩ := parts
      have hlength := splitAtFirst_length hsplit
      have hmark : commentEnd.length = 3 := rfl
      rw [List.length_cons] at hlength
      exact regionsFrom_eq_scan (by omega)

theorem not_comment_of_openTag (rest : List Char) : ¬ commentStart <+: openTag ++ rest := by
  rintro ⟨more, hmore⟩
  simp [commentStart_eq, openTag_eq] at hmore

/-- A script tag is scanned from behind its name on. -/
theorem scan_tag (h : startsScript (openTag ++ rest) = true) :
    scan pos (openTag ++ rest) = scanTag pos rest := by
  have hcomment : ¬ "<!--".toList.isPrefixOf (openTag ++ rest) = true := by
    rw [List.isPrefixOf_iff_prefix]
    exact not_comment_of_openTag rest
  obtain ⟨c, cs, htext⟩ : ∃ c cs, openTag ++ rest = c :: cs := ⟨'<', "script".toList ++ rest, rfl⟩
  have hlength : rest.length ≤ cs.length := by
    have := congrArg List.length htext
    have hopen : openTag.length = 7 := rfl
    simp only [List.length_append, List.length_cons] at this
    omega
  have hdrop : (c :: cs).drop openTag.length = rest := by rw [← htext, List.drop_left]
  rw [htext] at h hcomment ⊢
  change regionsFrom (cs.length + 1) pos (c :: cs) = _
  rw [regionsFrom]
  dsimp only
  rw [if_neg hcomment, if_pos h, hdrop]
  unfold scanTag
  cases htag : splitAtFirst ['>'] rest with
  | none => rfl
  | some parts =>
    obtain ⟨attrs, content⟩ := parts
    have hcontent := splitAtFirst_length htag
    dsimp only
    rw [regionsFrom_eq_scan (show content.length ≤ cs.length by omega)]
    cases hbody : splitAtFirst closeTag content with
    | none => rfl
    | some parts =>
      obtain ⟨body, behind⟩ := parts
      have hbehind := splitAtFirst_length hbody
      dsimp only
      rw [regionsFrom_eq_scan (show behind.length ≤ cs.length by omega)]
      rfl

theorem scan_other {c : Char} {cs : List Char} (hcomment : ¬ commentStart <+: c :: cs)
    (hscript : ¬ startsScript (c :: cs) = true) :
    scan pos (c :: cs) = scan (pos + c.utf8Size) cs := by
  have hcomment' : ¬ "<!--".toList.isPrefixOf (c :: cs) = true := by
    rw [List.isPrefixOf_iff_prefix]
    exact hcomment
  change regionsFrom (cs.length + 1) pos (c :: cs) = _
  rw [regionsFrom]
  dsimp only
  rw [if_neg hcomment', if_neg hscript]
  rfl

/-- What holds neither a comment nor a tag is passed. -/
theorem scan_append {a b : List Char} (hcomment : Nowhere (commentStart <+: ·) a b)
    (hscript : Nowhere (startsScript · = true) a b) :
    scan pos (a ++ b) = scan (pos + width a) b := by
  induction a generalizing pos with
  | nil => rfl
  | cons c a ih =>
    have hother : scan pos (c :: (a ++ b)) = scan (pos + c.utf8Size) (a ++ b) :=
      scan_other hcomment.1 hscript.1
    rw [List.cons_append, hother, ih hcomment.2 hscript.2, width_cons, Nat.add_assoc]

/-- Where no tag starts, no script does. -/
theorem nowhere_startsScript {a b : List Char} (h : Nowhere (openTag <+: ·) a b) :
    Nowhere (startsScript · = true) a b := by
  apply h.imp
  intro t ht
  obtain ⟨rest, rfl⟩ := startsScript_prefix ht
  exact List.prefix_append openTag rest

end Steps

end RefSugar.Document

import Mathlib
import RefSugar.Proofs.TagScan

/-! Documents that are written piece by piece: texts, comments and scripts. Main statement: the
regions that are found in such a document are its scripts that hold something, whatever the other
pieces hold. -/
namespace RefSugar.Document

open Text

inductive Piece where
  /-- Text in which neither a script tag nor a comment starts. -/
  | text (chars : List Char) (noTag : ¬ openTag <:+: chars) (noComment : ¬ commentStart <:+: chars)
  /-- A comment, with an end mark at its end and none before. -/
  | comment (chars : List Char) (opens : commentStart <+: chars) (closes : commentEnd <:+ chars)
    (once : ¬ commentEnd <:+: chars.dropLast)
  /-- A script. Its attributes, if there are any, stand behind a blank and do not end with a slash,
  blanks apart. -/
  | script (attrs body : List Char) (blank : attrs.head?.all isSpace = true) (inTag : '>' ∉ attrs)
    (hasBody : (dropEnd isSpace attrs).getLast? ≠ some '/') (noClose : ¬ closeTag <:+: body)

namespace Piece

def isText : Piece → Bool
  | text .. => true
  | comment .. | script .. => false

def render : Piece → List Char
  | text chars .. | comment chars .. => chars
  | script attrs body .. => openTag ++ attrs ++ ['>'] ++ body ++ closeTag

/-- The region of a piece that stands at an offset: a script that holds something has one. -/
def region? (pos : Nat) : Piece → Option Region
  | text .. | comment .. => none
  | script attrs body .. =>
    if body = [] then none
    else some (Region.ofScript (pos + width (openTag ++ attrs ++ ['>'])) attrs body)

end Piece

/-- A document as pieces, no two texts next to each other. -/
structure Page where
  pieces : List Piece
  apart : pieces.IsChain fun p q => ¬ (p.isText = true ∧ q.isText = true)

namespace Page

/-- The regions of pieces that stand one behind the other from an offset on. -/
def regionsFrom : Nat → List Piece → List Region
  | _, [] => []
  | pos, p :: rest => (p.region? pos).toList ++ regionsFrom (pos + width p.render) rest

def render (page : Page) : List Char :=
  page.pieces.flatMap Piece.render

def regions (page : Page) : List Region :=
  regionsFrom 0 page.pieces

end Page

section Pieces

variable {pos : Nat} {chars rest : List Char}

theorem scan_text (noTag : ¬ openTag <:+: chars) (noComment : ¬ commentStart <:+: chars)
    (hrest : rest = [] ∨ rest.head? = some '<') :
    scan pos (chars ++ rest) = scan (pos + width chars) rest := by
  have hopen : openTag = '<' :: "script".toList := rfl
  have hcomment : commentStart = '<' :: "!--".toList := rfl
  apply scan_append
  · rw [hcomment] at noComment ⊢
    exact nowhere_of_head (by decide) noComment hrest
  · apply nowhere_startsScript
    rw [hopen] at noTag ⊢
    exact nowhere_of_head (by decide) noTag hrest

/-- A mark that does not occur before the last character is not found before the end. -/
theorem nowhere_of_once {mark inside : List Char} (hmark : mark ≠ [])
    (once : ¬ mark <:+: (inside ++ mark).dropLast) :
    Nowhere (mark <+: ·) inside (mark ++ rest) := by
  induction inside with
  | nil => trivial
  | cons c inside ih =>
    have hlast : (c :: inside ++ mark).dropLast = c :: (inside ++ mark).dropLast := by
      rw [List.cons_append, List.dropLast_cons_of_ne_nil (by simp [hmark])]
    constructor
    · intro hleads
      -- the mark is too short to reach the last character
      have hshort : mark.length ≤ (c :: inside ++ mark).dropLast.length := by
        simp only [List.length_dropLast, List.length_append, List.length_cons]
        omega
      have hwhole : (c :: inside ++ mark).dropLast <+: c :: inside ++ (mark ++ rest) := by
        rw [← List.append_assoc]
        exact (List.dropLast_prefix _).trans (List.prefix_append _ _)
      exact once (List.prefix_of_prefix_length_le hleads hwhole hshort).isInfix
    · apply ih
      intro hwithin
      apply once
      rw [hlast]
      exact hwithin.trans (List.suffix_cons c _).isInfix

theorem scan_comment_piece (opens : commentStart <+: chars) (closes : commentEnd <:+ chars)
    (once : ¬ commentEnd <:+: chars.dropLast) :
    scan pos (chars ++ rest) = scan (pos + width chars) rest := by
  obtain ⟨inside, rfl⟩ := closes
  have hsplit : splitAtFirst commentEnd (inside ++ commentEnd ++ rest) = some (inside, rest) := by
    rw [splitAtFirst_eq_some_iff (by decide)]
    exact ⟨rfl, nowhere_of_once (by decide) once⟩
  have hwidth : pos + width (inside ++ commentEnd) = pos + width inside + 3 := by
    rw [width_append, ← Nat.add_assoc]
    rfl
  rw [scan_comment (opens.trans (List.prefix_append _ _)), hsplit, hwidth]

/-- A well-formed script gives one region, or none if it is empty, and the scan goes on behind it.
-/
theorem scan_script {attrs body : List Char} (blank : attrs.head?.all isSpace = true)
    (inTag : '>' ∉ attrs) (hasBody : (dropEnd isSpace attrs).getLast? ≠ some '/')
    (noClose : ¬ closeTag <:+: body) :
    scan pos (openTag ++ attrs ++ ['>'] ++ body ++ closeTag ++ rest) =
      (if body = [] then []
        else [Region.ofScript (pos + width (openTag ++ attrs ++ ['>'])) attrs body]) ++
        scan (pos + width (openTag ++ attrs ++ ['>'] ++ body ++ closeTag)) rest := by
  have hstart : startsScript (openTag ++ (attrs ++ '>' :: (body ++ closeTag ++ rest))) = true := by
    unfold startsScript
    rw [List.drop_left, Bool.and_eq_true]
    refine ⟨List.isPrefixOf_iff_prefix.mpr (List.prefix_append _ _), ?_⟩
    cases attrs with
    | nil => rfl
    | cons c attrs =>
      have hc : isSpace c = true := blank
      simp [hc]
  have htag : splitAtFirst ['>'] (attrs ++ '>' :: (body ++ closeTag ++ rest)) =
      some (attrs, body ++ closeTag ++ rest) := by
    rw [splitAtFirst_eq_some_iff (by decide)]
    refine ⟨by simp, nowhere_of_head (by simp) ?_ (.inr rfl)⟩
    intro hwithin
    exact inTag (hwithin.subset List.mem_cons_self)
  have hbody : splitAtFirst closeTag (body ++ closeTag ++ rest) = some (body, rest) := by
    have hclose : closeTag = '<' :: "/script>".toList := rfl
    rw [splitAtFirst_eq_some_iff (by decide)]
    refine ⟨rfl, ?_⟩
    rw [hclose] at noClose ⊢
    exact nowhere_of_head (by decide) noClose (.inr rfl)
  have hself : isSelfClosing attrs = false := beq_eq_false_iff_ne.mpr hasBody
  have hregion : pos + width (openTag ++ attrs ++ ['>']) = pos + 8 + width attrs := by
    have h := width_tag [] attrs
    rw [List.nil_append, width_nil] at h
    omega
  have hbehind : pos + width (openTag ++ attrs ++ ['>'] ++ body ++ closeTag) =
      pos + 8 + width attrs + width body + 9 := by
    have h := width_block [] attrs body
    rw [List.nil_append, width_nil] at h
    omega
  have htext : openTag ++ attrs ++ ['>'] ++ body ++ closeTag ++ rest =
      openTag ++ (attrs ++ '>' :: (body ++ closeTag ++ rest)) := by simp
  rw [htext, scan_tag hstart, hregion, hbehind]
  unfold scanTag
  rw [htag]
  dsimp only
  rw [hself, hbody]
  cases body with
  | nil => rfl
  | cons c body => rfl

/-- Every piece but a text starts with an angle. -/
theorem render_head (p : Piece) (hp : p.isText = false) (more : List Char) :
    (p.render ++ more).head? = some '<' := by
  cases p with
  | text => cases hp
  | comment chars opens closes once =>
    obtain ⟨rest, rfl⟩ := opens
    rfl
  | script => rfl

/-- The scan finds the regions of pieces one after the other. -/
theorem scan_pieces (pieces : List Piece)
    (hapart : pieces.IsChain fun p q => ¬ (p.isText = true ∧ q.isText = true)) (pos : Nat) :
    scan pos (pieces.flatMap Piece.render) = Page.regionsFrom pos pieces := by
  induction pieces generalizing pos with
  | nil => rfl
  | cons p rest ih =>
    have hrest := ih hapart.tail (pos + width p.render)
    rw [List.flatMap_cons, Page.regionsFrom, ← hrest]
    cases p with
    | text chars noTag noComment =>
      apply scan_text noTag noComment
      cases rest with
      | nil => exact .inl rfl
      | cons q rest =>
        -- the next piece is no text
        have hq : q.isText = false := by
          have hnot := (List.isChain_cons_cons.mp hapart).1
          simpa [Piece.isText] using hnot
        exact .inr (render_head q hq _)
    | comment chars opens closes once => exact scan_comment_piece opens closes once
    | script attrs body blank inTag hasBody noClose =>
      have hscript :=
        @scan_script pos (rest.flatMap Piece.render) attrs body blank inTag hasBody noClose
      rw [Piece.render, hscript, Piece.region?]
      congr 1
      split <;> rfl

end Pieces

/-- The regions that are found in a page are those of its scripts that hold something. -/
theorem scriptRegions_render (page : Page) : scriptRegions page.render = page.regions :=
  scan_pieces page.pieces page.apart 0

/-- A script in a comment, an empty script, and a script that holds tags and the start of a comment.
-/
def mixedPage : Page where
  pieces :=
    [.text "é<scrip ".toList (by decide) (by decide),
      .comment "<!--<script>a</script>-->".toList (by decide) (by decide) (by decide),
      .script " setup".toList [] (by decide) (by decide) (by decide) (by decide),
      .text "<".toList (by decide) (by decide),
      .script " lang=ts".toList "<script><!--".toList (by decide) (by decide) (by decide)
        (by decide)]
  apart := by decide

example : scriptRegions mixedPage.render = [⟨74, 86, .ts, false⟩] := by decide +kernel

end RefSugar.Document

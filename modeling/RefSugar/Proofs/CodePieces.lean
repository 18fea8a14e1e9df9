import RefSugar.Sigil.Scan
import Mathlib.Data.List.Chain

/-!
Texts that are written piece by piece: plain code, strings, comments, groups in braces, and
templates whose interpolations hold pieces again. Main statement: the scan finds a sigil in such a
text exactly if one of its plain pieces holds one, however deep that stands. Behind every front of the
text that ends in its code, the scan is in code.
-/
namespace RefSugar.Sigil

/-- A character of code that opens and closes nothing. -/
def isPlain (c : Char) : Bool :=
  c != '/' && c != '\'' && c != '"' && c != '\x60' && c != '\x7b' && c != '\x7d'

inductive StringPart (quote : Char) where
  | char (c : Char) (inside : c ≠ quote ∧ c ≠ '\\' ∧ c ≠ '\n')
  | escape (c : Char)

def StringPart.render {quote : Char} : StringPart quote → List Char
  | char c _ => [c]
  | escape c => ['\\', c]

inductive FixedPart where
  | char (c : Char) (inside : c ≠ '\x60' ∧ c ≠ '\\' ∧ c ≠ '$')
  | escape (c : Char)
  | sigil

def FixedPart.render : FixedPart → List Char
  | char c _ => [c]
  | escape c => ['\\', c]
  | sigil => ['$']

/-- The fixed text of a template. A sigil in it has no brace behind it. -/
structure FixedText where
  parts : List FixedPart
  stray : parts.IsChain fun p q => p = .sigil → q.render.head? ≠ some '\x7b'

def FixedText.render (text : FixedText) : List Char :=
  text.parts.flatMap FixedPart.render

mutual

inductive Piece where
  | plain (chars : List Char) (inside : ∀ c ∈ chars, isPlain c = true)
  | string (quote : Char) (isQuote : quote = '\'' ∨ quote = '"') (parts : List (StringPart quote))
  | lineComment (text : List Char) (inside : '\n' ∉ text)
  | blockComment (text : List Char) (inside : ¬ ['*', '/'] <:+: text)
  | group (inside : List Piece)
  | template (text : FixedText) (holes : List Hole)

/-- An interpolation, and the fixed text up to the next one. -/
inductive Hole where
  | mk (inside : List Piece) (behind : FixedText)

end

mutual

def Piece.render : Piece → List Char
  | .plain chars _ => chars
  | .string quote _ parts => quote :: parts.flatMap StringPart.render ++ [quote]
  | .lineComment text _ => '/' :: '/' :: text ++ ['\n']
  | .blockComment text _ => '/' :: '*' :: text ++ ['*', '/']
  | .group inside => '\x7b' :: renderAll inside ++ ['\x7d']
  | .template text holes => '\x60' :: text.render ++ renderHoles holes ++ ['\x60']

def renderAll : List Piece → List Char
  | [] => []
  | p :: ps => p.render ++ renderAll ps

def renderHoles : List Hole → List Char
  | [] => []
  | .mk inside behind :: holes =>
    '$' :: '\x7b' :: renderAll inside ++ '\x7d' :: behind.render ++ renderHoles holes

end

mutual

/-- The plain code in a piece, however deep it stands. -/
def Piece.plains : Piece → List (List Char)
  | .plain chars _ => [chars]
  | .string _ _ _ | .lineComment _ _ | .blockComment _ _ => []
  | .group inside => plainsOf inside
  | .template _ holes => holePlains holes

def plainsOf : List Piece → List (List Char)
  | [] => []
  | p :: ps => p.plains ++ plainsOf ps

def holePlains : List Hole → List (List Char)
  | [] => []
  | .mk inside _ :: holes => plainsOf inside ++ holePlains holes

end

/-- In code, and behind a whole token or inside a word. -/
def Mode.isSettled : Mode → Bool
  | code | word _ => true
  | _ => false

def Mode.isFixed : Mode → Bool
  | template | templateSigil => true
  | _ => false

def FixedPart.mode : FixedPart → Mode
  | char _ _ | escape _ => .template
  | sigil => .templateSigil

namespace Scan

/-- A scan that is in one of some modes is in one of them again behind the text, with the same
braces open, and has found a sigil if it had before or if one of the plain texts holds one. -/
def Keeps (within : Mode → Bool) (text : List Char) (plains : List (List Char)) : Prop :=
  ∀ s : Scan, within s.mode = true →
    within (text.foldl step s).mode = true ∧ (text.foldl step s).braces = s.braces ∧
      (text.foldl step s).found = (s.found || plains.any (·.contains '$'))

abbrev Passes := Keeps Mode.isSettled

abbrev Crosses := Keeps Mode.isFixed

section Steps

variable {s : Scan} {c : Char} {within : Mode → Bool} {a b : List Char} {P Q : List (List Char)}

theorem keeps_nil : Keeps within [] [] := fun s hs => ⟨hs, rfl, by simp⟩

theorem Keeps.append (ha : Keeps within a P) (hb : Keeps within b Q) :
    Keeps within (a ++ b) (P ++ Q) := by
  intro s hs
  obtain ⟨hmode, hbraces, hfound⟩ := ha s hs
  obtain ⟨hmode', hbraces', hfound'⟩ := hb _ hmode
  rw [List.foldl_append]
  refine ⟨hmode', hbraces'.trans hbraces, ?_⟩
  rw [hfound', hfound, List.any_append, Bool.or_assoc]

/-- Behind a word the scan goes on as in code, and only knows better whether an operand is expected.
-/
theorem step_settled (hs : s.mode.isSettled = true) (hc : isWordChar c = false) :
    ∃ operand, s.step c = code { s with operand } c := by
  obtain ⟨mode, braces, operand, found⟩ := s
  cases mode with
  | code => exact ⟨operand, rfl⟩
  | word chars =>
    exact ⟨operandWords.contains (String.ofList chars.reverse), by simp [step, hc]⟩
  | _ => cases hs

/-- A plain character leaves the scan in code. -/
theorem passes_plain_char (hc : isPlain c = true) : Passes [c] [[c]] := by
  intro s hs
  simp only [isPlain, Bool.and_eq_true, bne_iff_ne, ne_eq] at hc
  obtain ⟨⟨⟨⟨⟨hslash, hsingle⟩, hdouble⟩, hticks⟩, hopen⟩, hclose⟩ := hc
  have hcode (s : Scan) : (code s c).mode.isSettled = true ∧ (code s c).braces = s.braces ∧
      (code s c).found = (s.found || [[c]].any (·.contains '$')) := by
    by_cases hsigil : c = '$'
    · subst hsigil
      exact ⟨rfl, rfl, by simp [code]⟩
    · have hsigil' : ¬ '$' = c := fun h => hsigil h.symm
      simp only [code, beq_iff_eq, hslash, hsingle, hdouble, hticks, hopen, hclose, hsigil,
        Bool.or_eq_true, or_self, if_false]
      split
      · simp [Mode.isSettled, hsigil']
      · split
        · simp [Mode.isSettled, hsigil']
        · split <;> simp [Mode.isSettled, hsigil']
  cases hword : isWordChar c with
  | false =>
    obtain ⟨operand, hstep⟩ := step_settled hs hword
    rw [List.foldl_cons, List.foldl_nil, hstep]
    exact hcode _
  | true =>
    obtain ⟨mode, braces, operand, found⟩ := s
    cases mode with
    | code => exact hcode _
    | word chars =>
      have hsigil : ¬ '$' = c := by
        rintro rfl
        exact absurd hword (by decide)
      simp [step, hword, Mode.isSettled, hsigil]
    | _ => cases hs

theorem passes_plain {chars : List Char} (h : ∀ c ∈ chars, isPlain c = true) :
    Passes chars [chars] := by
  induction chars with
  | nil => exact fun s hs => ⟨hs, rfl, by simp⟩
  | cons c chars ih =>
    obtain ⟨hc, hchars⟩ := List.forall_mem_cons.mp h
    intro s hs
    have hboth := (passes_plain_char hc).append (ih hchars) s hs
    simpa using hboth

/-- A text in which the scan comes back to code and finds nothing. -/
theorem passes_hidden {text : List Char}
    (h : ∀ s : Scan, s.mode.isSettled = true →
      ∃ operand, text.foldl step s = { s with mode := .code, operand }) : Passes text [] := by
  intro s hs
  obtain ⟨operand, hend⟩ := h s hs
  rw [hend]
  exact ⟨rfl, rfl, by simp⟩

theorem string_parts {quote : Char} (hs : s.mode = .string quote)
    (parts : List (StringPart quote)) :
    (parts.flatMap StringPart.render).foldl step s = s := by
  induction parts with
  | nil => rfl
  | cons p parts ih =>
    have hpart : p.render.foldl step s = s := by
      obtain ⟨mode, braces, operand, found⟩ := s
      obtain rfl : mode = .string quote := hs
      cases p with
      | char c inside => simp [StringPart.render, step, inside]
      | escape c => simp [StringPart.render, step]
    rw [List.flatMap_cons, List.foldl_append, hpart, ih]

/-- A string is passed, whatever it holds. -/
theorem passes_string {quote : Char} (hquote : quote = '\'' ∨ quote = '"')
    (parts : List (StringPart quote)) :
    Passes (quote :: parts.flatMap StringPart.render ++ [quote]) [] := by
  refine passes_hidden fun s hs => ⟨false, ?_⟩
  have hopen : s.step quote = { s with mode := .string quote, operand := false } := by
    obtain ⟨operand, hstep⟩ :=
      step_settled (c := quote) hs (by rcases hquote with rfl | rfl <;> decide)
    rw [hstep]
    rcases hquote with rfl | rfl <;> rfl
  rw [List.cons_append, List.foldl_cons, List.foldl_append, hopen, string_parts rfl]
  have hne : quote ≠ '\\' := by rcases hquote with rfl | rfl <;> decide
  simp [step, hne]

/-- Two slashes, or a slash and a star, start a comment whatever is expected. -/
theorem step_slash (hs : s.mode.isSettled = true) :
    ∃ operand, s.step '/' = { s with mode := .slash, operand } := by
  obtain ⟨operand, hstep⟩ := step_settled (c := '/') hs (by decide)
  exact ⟨operand, hstep⟩

/-- A comment up to the end of a line is passed. -/
theorem passes_lineComment {text : List Char} (h : '\n' ∉ text) :
    Passes ('/' :: '/' :: text ++ ['\n']) [] := by
  have hinside (s : Scan) (hs : s.mode = .lineComment) : text.foldl step s = s := by
    induction text with
    | nil => rfl
    | cons c text ih =>
      obtain ⟨hc, htext⟩ : '\n' ≠ c ∧ '\n' ∉ text := by simpa using h
      have hstep : s.step c = s := by simp [step, hs, Ne.symm hc]
      rw [List.foldl_cons, hstep, ih htext]
  refine passes_hidden fun s hs => ?_
  obtain ⟨operand, hslash⟩ := step_slash hs
  refine ⟨operand, ?_⟩
  rw [List.cons_append, List.foldl_cons, hslash, List.cons_append, List.foldl_cons,
    List.foldl_append]
  have hopen : step { s with mode := .slash, operand } '/' =
      { s with mode := .lineComment, operand } := rfl
  rw [hopen, hinside _ rfl]
  rfl

/-- The scan leaves a block comment at its end mark. A star may stand right in front of the text. -/
theorem blockComment_end {text : List Char} (h : ¬ ['*', '/'] <:+: text)
    (hs : s.mode = .blockComment ∨ s.mode = .star ∧ text.head? ≠ some '/') :
    (text ++ ['*', '/']).foldl step s = { s with mode := .code } := by
  obtain ⟨mode, braces, operand, found⟩ := s
  induction text generalizing mode with
  | nil =>
    rcases hs with hs | ⟨hs, -⟩
    · obtain rfl : mode = .blockComment := hs
      rfl
    · obtain rfl : mode = .star := hs
      rfl
  | cons c text ih =>
    have htext : ¬ ['*', '/'] <:+: text := fun hwithin =>
      h (hwithin.trans (List.suffix_cons c text).isInfix)
    rw [List.cons_append, List.foldl_cons]
    by_cases hstar : c = '*'
    · -- no slash can follow the star
      subst hstar
      have hhead : text.head? ≠ some '/' := by
        intro hhead
        obtain ⟨rest, rfl⟩ := List.head?_eq_some_iff.mp hhead
        exact h ⟨[], rest, rfl⟩
      have hstep : step ⟨mode, braces, operand, found⟩ '*' = ⟨.star, braces, operand, found⟩ := by
        rcases hs with hs | ⟨hs, -⟩
        · obtain rfl : mode = .blockComment := hs
          rfl
        · obtain rfl : mode = .star := hs
          rfl
      rw [hstep]
      exact ih htext .star (.inr ⟨rfl, hhead⟩)
    · have hstep : step ⟨mode, braces, operand, found⟩ c =
          ⟨.blockComment, braces, operand, found⟩ := by
        rcases hs with hs | ⟨hs, hhead⟩
        · obtain rfl : mode = .blockComment := hs
          simp [step, hstar]
        · obtain rfl : mode = .star := hs
          have hslash : c ≠ '/' := by simpa using hhead
          simp [step, hstar, hslash]
      rw [hstep]
      exact ih htext .blockComment (.inl rfl)

theorem passes_blockComment {text : List Char} (h : ¬ ['*', '/'] <:+: text) :
    Passes ('/' :: '*' :: text ++ ['*', '/']) [] := by
  refine passes_hidden fun s hs => ?_
  obtain ⟨operand, hslash⟩ := step_slash hs
  refine ⟨operand, ?_⟩
  rw [List.cons_append, List.foldl_cons, hslash, List.cons_append, List.foldl_cons]
  exact blockComment_end (s := { s with mode := .blockComment, operand }) h (.inl rfl)

/-- A group opens a brace and closes it again, in an interpolation or outside. -/
theorem passes_group (h : Passes a P) : Passes ('\x7b' :: a ++ ['\x7d']) P := by
  intro s hs
  obtain ⟨operand, hopen⟩ := step_settled (c := '\x7b') hs (by decide)
  obtain ⟨hmode, hbraces, hfound⟩ := h (s.step '\x7b') (by rw [hopen]; rfl)
  obtain ⟨operand', hclose⟩ := step_settled (c := '\x7d') hmode (by decide)
  rw [List.cons_append, List.foldl_cons, List.foldl_append, List.foldl_cons, List.foldl_nil, hclose]
  rw [hopen] at hbraces hfound ⊢
  generalize a.foldl step _ = t at hbraces hfound
  obtain ⟨mode, braces, operand, found⟩ := t
  subst hbraces hfound
  cases hs : s.braces with
  | nil => simp [code, Mode.isSettled]
  | cons n ns => simp [code, Mode.isSettled]

/-- The fixed text of a template is passed, whatever stands in front of it, as long as it does not
start with a brace behind a sigil. -/
theorem fixed_parts (parts : List FixedPart)
    (hstray : parts.IsChain fun p q => p = .sigil → q.render.head? ≠ some '\x7b')
    (hs : s.mode = .template ∨
      s.mode = .templateSigil ∧ ∀ p ∈ parts.head?, p.render.head? ≠ some '\x7b') :
    ∃ mode, mode.isFixed = true ∧
      (parts.flatMap FixedPart.render).foldl step s = { s with mode } := by
  induction parts generalizing s with
  | nil =>
    refine ⟨s.mode, ?_, rfl⟩
    rcases hs with hs | ⟨hs, -⟩ <;> rw [hs] <;> rfl
  | cons p parts ih =>
    have hstep : ∀ c, p.render.head? = some c → s.step c = template s c := by
      intro c hc
      rcases hs with hs | ⟨hs, hhead⟩
      · simp [step, hs]
      · have hbrace : c ≠ '\x7b' := by
          rintro rfl
          exact hhead p rfl hc
        simp [step, hs, hbrace]
    have hpart : p.render.foldl step s = { s with mode := p.mode } := by
      cases p with
      | char c inside =>
        rw [FixedPart.render, List.foldl_cons, List.foldl_nil, hstep c rfl]
        simp [template, inside, FixedPart.mode]
      | escape c =>
        rw [FixedPart.render, List.foldl_cons, hstep '\\' rfl]
        simp [template, step, FixedPart.mode]
      | sigil =>
        rw [FixedPart.render, List.foldl_cons, List.foldl_nil, hstep '$' rfl]
        simp [template, FixedPart.mode]
    have hnext : p.mode = .template ∨
        p.mode = .templateSigil ∧ ∀ q ∈ parts.head?, q.render.head? ≠ some '\x7b' := by
      cases p with
      | char c inside => exact .inl rfl
      | escape c => exact .inl rfl
      | sigil =>
        refine .inr ⟨rfl, fun q hq => ?_⟩
        obtain ⟨rest, rfl⟩ := List.head?_eq_some_iff.mp hq
        exact (List.isChain_cons_cons.mp hstray).1 rfl
    obtain ⟨mode, hmode, hend⟩ := ih (s := { s with mode := p.mode }) hstray.tail hnext
    exact ⟨mode, hmode, by rw [List.flatMap_cons, List.foldl_append, hpart, hend]⟩

/-- An interpolation has a count of braces of its own, which is gone at its end. -/
theorem crosses_hole (h : Passes a P) (behind : FixedText) :
    Crosses ('$' :: '\x7b' :: a ++ '\x7d' :: behind.render) P := by
  intro s hs
  have hsigil : s.step '$' = { s with mode := .templateSigil } := by
    obtain ⟨mode, braces, operand, found⟩ := s
    cases mode with
    | template | templateSigil => rfl
    | _ => cases hs
  have hopen : step { s with mode := .templateSigil } '\x7b' =
      { s with mode := .code, operand := true, braces := 0 :: s.braces } := rfl
  obtain ⟨hmode, hbraces, hfound⟩ :=
    h { s with mode := .code, operand := true, braces := 0 :: s.braces } rfl
  obtain ⟨operand, hclose⟩ := step_settled (c := '\x7d') hmode (by decide)
  rw [List.cons_append, List.foldl_cons, List.cons_append, List.foldl_cons, List.foldl_append,
    List.foldl_cons, hsigil, hopen, hclose]
  generalize a.foldl step _ = t at hbraces hfound
  obtain ⟨mode, braces, _, found⟩ := t
  subst hbraces hfound
  obtain ⟨mode', hfixed, hend⟩ := fixed_parts (s := code ⟨mode, 0 :: s.braces, operand,
    s.found || P.any (·.contains '$')⟩ '\x7d') behind.parts behind.stray (.inl rfl)
  rw [FixedText.render, hend]
  exact ⟨hfixed, rfl, rfl⟩

/-- A template passes if its interpolations do. -/
theorem passes_template (text : FixedText) (h : Crosses a P) :
    Passes ('\x60' :: text.render ++ a ++ ['\x60']) P := by
  intro s hs
  obtain ⟨operand, hopen⟩ := step_settled (c := '\x60') hs (by decide)
  obtain ⟨mode, hfixed, hend⟩ := fixed_parts (s := code { s with operand } '\x60') text.parts
    text.stray (.inl rfl)
  rw [List.append_assoc, List.cons_append, List.foldl_cons, List.foldl_append, List.foldl_append,
    hopen, FixedText.render, hend]
  obtain ⟨hmode, hbraces, hfound⟩ := h { code { s with operand } '\x60' with mode } hfixed
  generalize a.foldl step _ = t at hmode hbraces hfound
  obtain ⟨mode, braces, _, found⟩ := t
  subst hbraces hfound
  cases mode with
  | template | templateSigil => exact ⟨rfl, rfl, rfl⟩
  | _ => cases hmode

end Steps

end Scan

open Scan

mutual

/-- Every piece is passed, by induction on how pieces stand in each other. -/
theorem passes_piece : (p : Piece) → Passes p.render p.plains
  | .plain _ inside => by
    rw [Piece.render, Piece.plains]
    exact passes_plain inside
  | .string _ isQuote parts => by
    rw [Piece.render, Piece.plains]
    exact passes_string isQuote parts
  | .lineComment _ inside => by
    rw [Piece.render, Piece.plains]
    exact passes_lineComment inside
  | .blockComment _ inside => by
    rw [Piece.render, Piece.plains]
    exact passes_blockComment inside
  | .group inside => by
    rw [Piece.render, Piece.plains]
    exact passes_group (passes_pieces inside)
  | .template text holes => by
    rw [Piece.render, Piece.plains]
    exact passes_template text (crosses_holes holes)

theorem passes_pieces : (ps : List Piece) → Passes (renderAll ps) (plainsOf ps)
  | [] => by
    rw [renderAll, plainsOf]
    exact keeps_nil
  | p :: ps => by
    rw [renderAll, plainsOf]
    exact (passes_piece p).append (passes_pieces ps)

theorem crosses_holes : (holes : List Hole) → Crosses (renderHoles holes) (holePlains holes)
  | [] => by
    rw [renderHoles, holePlains]
    exact keeps_nil
  | .mk inside behind :: holes => by
    rw [renderHoles, holePlains]
    exact (crosses_hole (passes_pieces inside) behind).append (crosses_holes holes)

end

/-- A text of pieces has a sigil exactly if one of its plain pieces has, at any depth. -/
theorem containsSigil_renderAll_iff (ps : List Piece) :
    containsSigil (renderAll ps) = true ↔ ∃ chars ∈ plainsOf ps, '$' ∈ chars := by
  obtain ⟨-, -, hfound⟩ := passes_pieces ps {} rfl
  rw [containsSigil, hfound, Bool.false_or]
  simp

/-- A sigil in a group, in an interpolation that stands behind a stray sigil. -/
example : containsSigil (renderAll
    [.template ⟨[.sigil], .singleton _⟩
      [.mk [.group [.plain ['$'] (by simp [isPlain])]] ⟨[], .nil⟩]]) = true := by
  decide

/-- The front of a text of pieces, up to somewhere in its code: in a plain piece, between two pieces, or
in the same way inside of a group or an interpolation. -/
inductive CodeFront : List Piece → List Char → Prop
  | start (ps : List Piece) : CodeFront ps []
  | plain {front back : List Char} (inside : ∀ c ∈ front ++ back, isPlain c = true) (ps : List Piece) :
    CodeFront (.plain (front ++ back) inside :: ps) front
  | behind (p : Piece) {ps : List Piece} {front : List Char} (h : CodeFront ps front) :
    CodeFront (p :: ps) (p.render ++ front)
  | group {inside : List Piece} {front : List Char} (h : CodeFront inside front) (ps : List Piece) :
    CodeFront (.group inside :: ps) ('\x7b' :: front)
  | hole (text : FixedText) (holes : List Hole) {inside : List Piece} {front : List Char}
    (h : CodeFront inside front) (behind : FixedText) (more : List Hole) (ps : List Piece) :
    CodeFront (.template text (holes ++ .mk inside behind :: more) :: ps)
      ('\x60' :: text.render ++ renderHoles holes ++ '$' :: '\x7b' :: front)

/-- In the code of pieces the scan is in code. -/
theorem CodeFront.settled {ps : List Piece} {front : List Char} (h : CodeFront ps front) (s : Scan)
    (hs : s.mode.isSettled = true) : (front.foldl step s).mode.isSettled = true := by
  induction h generalizing s with
  | start => exact hs
  | plain inside => exact (passes_plain (fun c hc => inside c (List.mem_append_left _ hc)) s hs).1
  | behind p _ ih =>
    rw [List.foldl_append]
    exact ih _ (passes_piece p s hs).1
  | group _ ps ih =>
    obtain ⟨operand, hopen⟩ := step_settled (c := '\x7b') hs (by decide)
    rw [List.foldl_cons, hopen]
    exact ih _ rfl
  | hole text holes _ behind more ps ih =>
    -- through the fixed text and the interpolations in front, into this one
    obtain ⟨operand, hopen⟩ := step_settled (c := '\x60') hs (by decide)
    obtain ⟨mode, hfixed, hend⟩ := fixed_parts (s := Scan.code { s with operand } '\x60') text.parts
      text.stray (.inl rfl)
    have hholes := (crosses_holes holes { Scan.code { s with operand } '\x60' with mode } hfixed).1
    simp only [List.foldl_append, List.foldl_cons, hopen, FixedText.render, hend]
    generalize (renderHoles holes).foldl step _ = t at hholes ⊢
    obtain ⟨mode, braces, operand, found⟩ := t
    cases mode with
    | template | templateSigil => exact ih _ rfl
    | _ => cases hholes

end RefSugar.Sigil

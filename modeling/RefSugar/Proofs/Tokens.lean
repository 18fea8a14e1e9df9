import Mathlib.Data.List.Basic
import RefSugar.Proofs.Spelling

/-! Tokens of a text. A token stands between two characters, and where it ends with a sigil no
character of a name follows: a sigil can only end a token as the last character of a whole word. -/
namespace RefSugar.Syntax

open Text

variable {cs rest : List Char} {pos : Nat} {a : Char} {stop : Cursor} {name : String}

def StopsName (rest : List Char) : Prop :=
  rest.head?.any isExtender = false

theorem stopsName_cons {c : Char} (h : isExtender c = false) :
    StopsName (c :: rest) := by
  simpa [StopsName] using h

theorem isExtender_of_isLineEnd {c : Char} (h : isLineEnd c = true) : isExtender c = false := by
  simp only [isLineEnd, Bool.or_eq_true, beq_iff_eq] at h
  rcases h with ((rfl | rfl) | hcode) | hcode
  · decide +kernel
  · decide +kernel
  · rw [← Char.ofNat_toNat c, hcode]
    decide +kernel
  · rw [← Char.ofNat_toNat c, hcode]
    decide +kernel

theorem EndsName.stopsName {back : List Char} (h : EndsName back) : StopsName back := by
  cases back with
  | nil => rfl
  | cons c back =>
    simp only [EndsName, List.head?_cons, Option.any_some, Bool.or_eq_false_iff] at h
    exact stopsName_cons h.1

/-- A sigil in front of the offset ends its word. -/
def Closes (text : List Char) (p : Nat) : Prop :=
  ∀ a b, text = a ++ b → width a = p → a.getLast? = some '$' → StopsName b

theorem Closes.of_split {text a b : List Char} (htext : text = a ++ b)
    (h : a.getLast? = some '$' → StopsName b) : Closes text (width a) := by
  intro a' b' htext' hwidth hlast
  obtain ⟨rfl, rfl⟩ := append_inj_of_width (htext'.symm.trans htext) hwidth
  exact h hlast

theorem Spelled.closes {text : List Char} {id : Ident} (h : Spelled text id) :
    Closes text id.span.hi := by
  obtain ⟨_, front, raw, back, htext, _, hhi, _, hword⟩ := h
  rw [← hhi, ← width_append]
  exact .of_split htext fun _ => hword.ends.stopsName

/-- Behind a sign that no name goes on with, whatever stands in front of it. -/
theorem Opens.closes {text : List Char} {lo start : Nat} (h : Opens text lo start)
    (hstart : Closes text start) : Closes text lo := by
  rcases h with rfl | ⟨_, c, hchar, hc⟩
  · exact hstart
  · obtain ⟨a, b, rfl, rfl⟩ := charAt?_eq_some_iff.mp hchar
    exact .of_split rfl fun _ => stopsName_cons hc

/-- What a scan takes from a cursor up to an offset: if nothing, or if a sigil is the last of it, no
character of a name follows. -/
def Cursor.Ends (c : Cursor) (p : Nat) : Prop :=
  ∃ raw rest, c.text = raw ++ rest ∧ p = c.pos + width raw ∧
    (raw = [] ∨ raw.getLast? = some '$' → StopsName rest)

/-- The same, unless nothing is taken. -/
def Cursor.Completes (c : Cursor) (p : Nat) : Prop :=
  ∃ raw rest, c.text = raw ++ rest ∧ p = c.pos + width raw ∧
    (raw.getLast? = some '$' → StopsName rest)

/-- What is taken between the cursors has no sigil. -/
def Cursor.Plainly (c d : Cursor) : Prop :=
  ∃ raw, c.text = raw ++ d.text ∧ d.pos = c.pos + width raw ∧ '$' ∉ raw

namespace Cursor

variable {c d e : Cursor} {p : Nat}

theorem Ends.completes (h : c.Ends p) : c.Completes p := by
  obtain ⟨raw, rest, htext, hpos, hstops⟩ := h
  exact ⟨raw, rest, htext, hpos, fun hlast => hstops (.inr hlast)⟩

theorem Ends.here (h : StopsName c.text) : c.Ends c.pos :=
  ⟨[], c.text, rfl, rfl, fun _ => h⟩

/-- Characters in front of what is taken do not matter. -/
theorem Ends.skip (front : List Char)
    (h : Ends ⟨pos + width front, rest⟩ p) : Ends ⟨pos, front ++ rest⟩ p := by
  obtain ⟨raw, rest', htext, rfl, hstops⟩ := h
  refine ⟨front ++ raw, rest', ?_, by rw [width_append]; exact Nat.add_assoc _ _ _, ?_⟩
  · exact (congrArg (front ++ ·) htext).trans (List.append_assoc ..).symm
  · intro hlast
    refine hstops ?_
    by_cases hraw : raw = []
    · exact .inl hraw
    · rw [List.getLast?_append_of_ne_nil front hraw] at hlast
      exact .inr (hlast.resolve_left (by simp [hraw]))

theorem Ends.step {pos : Nat} (a : Char) {cs : List Char} (h : Ends ⟨pos + a.utf8Size, cs⟩ p) :
    Ends ⟨pos, a :: cs⟩ p :=
  .skip [a] h

/-- Behind a character other than a sigil. -/
theorem Ends.byte (ha : a ≠ '$') (hsize : a.utf8Size = 1) (pos : Nat) (cs : List Char) :
    Ends ⟨pos, a :: cs⟩ (pos + 1) := by
  refine ⟨[a], cs, rfl, by simp [hsize], ?_⟩
  rintro (hnil | hlast)
  · cases hnil
  · exact absurd (by simpa using hlast) ha

theorem Plainly.refl (c : Cursor) : c.Plainly c :=
  ⟨[], rfl, rfl, by simp⟩

theorem Plainly.trans (h : c.Plainly d) (h' : d.Plainly e) : c.Plainly e := by
  obtain ⟨raw, htext, hpos, hplain⟩ := h
  obtain ⟨raw', htext', hpos', hplain'⟩ := h'
  refine ⟨raw ++ raw', by rw [htext, htext', List.append_assoc], ?_, by simp [hplain, hplain']⟩
  rw [hpos', hpos, width_append, Nat.add_assoc]

theorem Plainly.byte (ha : a ≠ '$') (hsize : a.utf8Size = 1) (pos : Nat)
    (cs : List Char) : Plainly ⟨pos, a :: cs⟩ ⟨pos + 1, cs⟩ :=
  ⟨[a], rfl, by simp [hsize], by simpa using ha.symm⟩

/-- Behind one of two characters that take one byte. -/
theorem Plainly.either {x y : Char} (h : (a == x || a == y) = true)
    (hx : x ≠ '$' ∧ x.utf8Size = 1) (hy : y ≠ '$' ∧ y.utf8Size = 1) (pos : Nat) (cs : List Char) :
    Plainly ⟨pos, a :: cs⟩ ⟨pos + 1, cs⟩ := by
  rw [Bool.or_eq_true] at h
  rcases h with h | h
  · rw [eq_of_beq h]
    exact .byte hx.1 hx.2 pos cs
  · rw [eq_of_beq h]
    exact .byte hy.1 hy.2 pos cs

theorem Plainly.completes (h : c.Plainly d) : c.Completes d.pos := by
  obtain ⟨raw, htext, hpos, hplain⟩ := h
  exact ⟨raw, d.text, htext, hpos, fun hlast => absurd (List.mem_of_getLast? hlast) hplain⟩

end Cursor

/-- A scan that completes what it takes ends where a word may end. -/
theorem Closes.of_completes {text : List Char} {c : Cursor} {p : Nat} (hinto : c.Into text)
    (hstart : Closes text c.pos) (h : c.Completes p) : Closes text p := by
  obtain ⟨raw, rest, htext, rfl, hstops⟩ := h
  by_cases hraw : raw = []
  · simpa [hraw] using hstart
  · obtain ⟨front, rest', hfront, hpos, hrest⟩ := hinto
    obtain rfl := hrest.resolve_right (by simp [htext, hraw])
    rw [hpos, Nat.zero_add, ← width_append]
    refine .of_split (b := rest) (by rw [List.append_assoc, ← htext]; exact hfront) fun hlast => ?_
    rw [List.getLast?_append_of_ne_nil front hraw] at hlast
    exact hstops hlast

namespace Lexer

theorem skipWhile_plainly {p : Char → Bool} (hp : p '$' = false) (pos : Nat) (cs : List Char) :
    Cursor.Plainly ⟨pos, cs⟩ (skipWhile p pos cs) := by
  obtain ⟨raw, htext, hpos, hall, _⟩ := skipWhile_spec p pos cs
  exact ⟨raw, htext, hpos, fun hmem => Bool.noConfusion (hp.symm.trans (hall _ hmem))⟩

/-- A scan past all characters of names ends where none follows. -/
theorem skipWhile_ends {p : Char → Bool} (hp : ∀ c, p c = false → isExtender c = false) (pos : Nat)
    (cs : List Char) : Cursor.Ends ⟨pos, cs⟩ (skipWhile p pos cs).pos := by
  obtain ⟨raw, htext, hpos, _, hend⟩ := skipWhile_spec p pos cs
  refine ⟨raw, _, htext, hpos, fun _ => ?_⟩
  generalize (skipWhile p pos cs).text = behind at hend
  cases behind with
  | nil => rfl
  | cons c behind => exact stopsName_cons (hp c (hend c rfl))

/-- Blanks and comments end with something else than a sigil, or at the end of the text. -/
def Gap.Ends (c : Cursor) (blank : Blank) (gap : Gap) : Prop :=
  ∃ raw, c.text = raw ++ gap.stop.text ∧ gap.stop.pos = c.pos + width raw ∧
    (raw = [] ∧ blank ≠ .between ∨ raw.getLast? = some '$' → gap.stop.text = [])

/-- One more character in front, which is no sigil if a comment ends with it. -/
theorem Gap.Ends.cons {pos : Nat} {a : Char} {cs : List Char} {blank b : Blank} {gap : Gap}
    (hsign : b = .between → a ≠ '$') (h : gap.Ends ⟨pos + a.utf8Size, cs⟩ b) :
    gap.Ends ⟨pos, a :: cs⟩ blank := by
  obtain ⟨raw, htext, hpos, hends⟩ := h
  refine ⟨a :: raw, congrArg (a :: ·) htext, by rw [hpos, width_cons]; exact Nat.add_assoc _ _ _, ?_⟩
  rintro (⟨hnil, _⟩ | hlast)
  · cases hnil
  · by_cases hraw : raw = []
    · subst hraw
      obtain rfl : a = '$' := by simpa using hlast
      exact hends (.inl ⟨rfl, fun hb => hsign hb rfl⟩)
    · rw [List.getLast?_cons_of_ne_nil hraw] at hlast
      exact hends (.inr hlast)

/-- Blanks and comments do not end inside of a word. -/
theorem skipBlank_ends (inType : Bool) (mark? : Option Nat) (blank : Blank) (fresh : Bool)
    (pos : Nat) (cs : List Char) :
    (skipBlank inType mark? blank fresh pos cs).Ends ⟨pos, cs⟩ blank := by
  have hsign {c : Char} {p : Char → Bool} (hp : p '$' = false) (hc : p c = true) : c ≠ '$' := by
    rintro rfl
    rw [hp] at hc
    cases hc
  fun_induction skipBlank inType mark? blank fresh pos cs with
  | case1 mark? => exact ⟨[], rfl, rfl, fun _ => rfl⟩
  | case2 mark? fresh pos cs ih =>
    exact .cons (b := .blockComment) (by simp) (.cons (fun _ => by decide) ih)
  | case3 mark? fresh pos c cs _ ih => exact .cons (by simp) ih
  | case4 mark? fresh pos c cs hend ih => exact .cons (fun _ => hsign (by decide) hend) ih
  | case5 mark? fresh pos c cs _ ih => exact .cons (by simp) ih
  | case6 mark? fresh pos cs ih =>
    exact .cons (b := .lineComment) (by simp) (.cons (by simp) ih)
  | case7 mark? fresh pos cs ih =>
    exact .cons (b := .blockComment) (by simp) (.cons (by simp) ih)
  | case8 mark? fresh pos c cs _ _ hblank ih =>
    exact .cons (fun _ => hsign (p := isBlank) (by decide) hblank) ih
  | case9 mark? fresh pos c cs _ _ _ hmark ih => exact .cons (by simp) ih
  | case10 mark? fresh pos c cs => exact ⟨[], rfl, rfl, by simp⟩

theorem Gap.Ends.completes {c : Cursor} {gap : Gap} (h : gap.Ends c .between) :
    c.Completes gap.stop.pos := by
  obtain ⟨raw, htext, hpos, hends⟩ := h
  exact ⟨raw, _, htext, hpos, fun hlast => by rw [hends (.inr hlast)]; rfl⟩

theorem scanName_stops (chars : List Char) (escaped : Bool) (n pos : Nat) (cs : List Char) :
    StopsName (scanName chars escaped n pos cs).stop.text := by
  fun_induction scanName chars escaped n pos cs with
  | case1 => rfl
  | case2 _ _ _ _ _ _ ih | case3 _ _ _ _ _ _ ih | case4 _ _ _ _ _ _ _ _ _ ih => exact ih
  | case5 chars escaped pos c cs hc | case6 chars escaped pos c cs hc =>
    exact stopsName_cons (Bool.not_eq_true _ ▸ hc)

/-- A scan of a name ends where no character of a name follows. -/
theorem scanName_ends (pos : Nat) (cs : List Char) :
    Cursor.Ends ⟨pos, cs⟩ (scanName [] false 0 pos cs).stop.pos := by
  obtain ⟨raw, h⟩ := scanName_scanned [] false 0 pos cs (.zero _) (by simp)
  exact ⟨raw, _, h.text, h.pos, fun _ => scanName_stops [] false 0 pos cs⟩

theorem scanWord_ends (pos : Nat) (cs : List Char) :
    Cursor.Ends ⟨pos, cs⟩ (scanWord pos cs).2.pos := by
  have hends := scanName_ends pos cs
  unfold scanWord
  dsimp only
  split <;> exact hends

theorem scanString_ends {quote : Char} (hquote : quote ≠ '$') (hsize : quote.utf8Size = 1)
    (pos : Nat) (cs : List Char) : Cursor.Ends ⟨pos, cs⟩ (scanString quote pos cs).2.pos := by
  have hslash (pos : Nat) (cs : List Char) : Cursor.Ends ⟨pos, '\\' :: cs⟩ (pos + 1) :=
    .byte (by decide) rfl pos cs
  fun_induction scanString quote pos cs with
  | case1 pos => exact .here rfl
  | case2 pos cs ih => exact .skip ['\\', '\r', '\n'] ih
  | case3 pos => exact hslash pos []
  | case4 pos c cs => exact hslash pos _
  | case5 pos c cs _ _ ih => exact .step '\\' (.step c ih)
  | case6 pos c cs _ _ _ hc =>
    obtain rfl := eq_of_beq hc
    exact .byte hquote hsize pos cs
  | case7 pos c cs _ _ _ _ hend =>
    refine .here (stopsName_cons ?_)
    rw [Bool.or_eq_true] at hend
    rcases hend with hc | hc <;> rw [eq_of_beq hc] <;> decide
  | case8 pos c cs _ _ _ _ _ ih => exact .step c ih

theorem scanTemplate_ends {more : Bool}
    (h : scanTemplate pos cs = some (stop, more)) : Cursor.Ends ⟨pos, cs⟩ stop.pos := by
  fun_induction scanTemplate pos cs with
  | case1 => cases h
  | case2 pos c cs ih => exact .step '\\' (.step c (ih h))
  | case3 pos cs =>
    -- the sigil of a substitution is taken with the brace behind it
    obtain ⟨rfl, _⟩ := Prod.mk.inj (Option.some.inj h)
    exact .step '$' (.byte (by decide) rfl (pos + 1) cs)
  | case4 pos c cs _ _ hc =>
    obtain rfl := eq_of_beq hc
    obtain ⟨rfl, _⟩ := Prod.mk.inj (Option.some.inj h)
    exact .byte (by decide) rfl pos cs
  | case5 pos c cs _ _ _ ih => exact .step c (ih h)

theorem scanFlags_ends (pos : Nat) (cs : List Char) :
    Cursor.Ends ⟨pos, '/' :: cs⟩ (scanFlags ⟨pos + 1, cs⟩).2.pos := by
  have hends : Cursor.Ends ⟨pos, '/' :: cs⟩ (scanName [] false 0 (pos + 1) cs).stop.pos :=
    .step '/' (scanName_ends (pos + 1) cs)
  unfold scanFlags
  split
  · dsimp only
    split <;> exact hends
  · exact .byte (by decide) rfl pos cs

theorem scanRegex_ends {inClass : Bool}
    (h : scanRegex inClass pos cs = some stop) : Cursor.Ends ⟨pos, cs⟩ (scanFlags stop).2.pos := by
  fun_induction scanRegex inClass pos cs with
  | case1 => cases h
  | case2 => cases h
  | case3 inClass pos c cs _ ih => exact .step '\\' (.step c (ih h))
  | case4 => cases h
  | case5 inClass pos c cs _ _ hc =>
    rw [Bool.and_eq_true] at hc
    obtain rfl := eq_of_beq hc.1
    obtain rfl := Option.some.inj h
    exact scanFlags_ends pos cs
  | case6 inClass pos c cs _ _ _ ih => exact .step c (ih h)

section Numbers

variable {start : Cursor}

theorem scanBased_plainly {base : Nat} {p : Char → Bool} (hp : p '$' = false)
    (h : start.Plainly ⟨pos, cs⟩) : start.Plainly (scanBased base p pos cs).2 := by
  have hstop := h.trans (@skipWhile_plainly (fun c => p c || c == '_') (by simp [hp]) pos cs)
  unfold scanBased
  dsimp only
  split
  · exact h
  · split
    · rename_i rest hrest
      have hbyte := Cursor.Plainly.byte (a := 'n') (by decide) rfl
        (skipWhile (fun c => p c || c == '_') pos cs).pos rest
      rw [← hrest] at hbyte
      exact hstop.trans hbyte
    · exact hstop

theorem scanExponent_plainly (h : start.Plainly stop) :
    start.Plainly (scanExponent stop).2 := by
  obtain ⟨pos, cs⟩ := stop
  unfold scanExponent
  dsimp only
  split
  · rename_i e cs
    split
    · rename_i he
      have hbehind := h.trans (.either he ⟨by decide, rfl⟩ ⟨by decide, rfl⟩ pos cs)
      split
      · exact hbehind
      · rename_i s rest
        have hdigits : start.Plainly
            (if s == '+' || s == '-' then ⟨pos + 2, rest⟩ else ⟨pos + 1, s :: rest⟩) := by
          split
          · rename_i hs
            exact hbehind.trans (.either hs ⟨by decide, rfl⟩ ⟨by decide, rfl⟩ (pos + 1) rest)
          · exact hbehind
        generalize (if s == '+' || s == '-' then (⟨pos + 2, rest⟩ : Cursor)
          else ⟨pos + 1, s :: rest⟩) = digits at hdigits ⊢
        split
        · exact hdigits.trans (skipWhile_plainly (by decide) _ _)
        · exact hdigits
    · exact h
  · exact h

theorem scanDecimal_plainly (pos : Nat) (cs : List Char) :
    Cursor.Plainly ⟨pos, cs⟩ (scanDecimal pos cs).2 := by
  have hwhole := @skipWhile_plainly isDecimal (by decide) pos cs
  have hbyte {a : Char} {rest : List Char} (hrest : (skipWhile isDecimal pos cs).text = a :: rest)
      (ha : a ≠ '$') (hsize : a.utf8Size = 1) :
      Cursor.Plainly ⟨pos, cs⟩ ⟨(skipWhile isDecimal pos cs).pos + 1, rest⟩ := by
    have h := Cursor.Plainly.byte ha hsize (skipWhile isDecimal pos cs).pos rest
    rw [← hrest] at h
    exact hwhole.trans h
  unfold scanDecimal
  dsimp only
  split
  · exact hwhole
  · split
    · rename_i rest hrest
      exact scanExponent_plainly ((hbyte hrest (by decide) rfl).trans
        (skipWhile_plainly (by decide) _ _))
    · rename_i rest hrest
      split
      · exact hwhole
      · exact hbyte hrest (by decide) rfl
    · exact scanExponent_plainly hwhole

/-- A number has no sigil in it. -/
theorem scanNumber_plainly (pos : Nat) (cs : List Char) :
    Cursor.Plainly ⟨pos, cs⟩ (scanNumber pos cs).2 := by
  unfold scanNumber
  split
  rename_i kind stop hfound
  have hplainly : Cursor.Plainly ⟨pos, cs⟩ stop := by
    have hstop := congrArg Prod.snd hfound
    dsimp only at hstop
    rw [← hstop]
    split
    · rename_i b rest
      have hbased {x y : Char} (hb : (b == x || b == y) = true)
          (hx : x ≠ '$' ∧ x.utf8Size = 1) (hy : y ≠ '$' ∧ y.utf8Size = 1) :
          Cursor.Plainly ⟨pos, '0' :: b :: rest⟩ ⟨pos + 2, rest⟩ :=
        (Cursor.Plainly.byte (by decide) rfl pos _).trans (.either hb hx hy (pos + 1) rest)
      split
      · rename_i hb
        exact scanBased_plainly (by decide) (hbased hb ⟨by decide, rfl⟩ ⟨by decide, rfl⟩)
      · split
        · rename_i hb
          exact scanBased_plainly (by decide) (hbased hb ⟨by decide, rfl⟩ ⟨by decide, rfl⟩)
        · split
          · rename_i hb
            exact scanBased_plainly (by decide) (hbased hb ⟨by decide, rfl⟩ ⟨by decide, rfl⟩)
          · exact scanDecimal_plainly pos _
    · exact scanDecimal_plainly pos cs
  split
  · split <;> exact hplainly
  · exact hplainly

end Numbers

theorem punctuators_plain : ∀ p ∈ punctuators, '$' ∉ p.toList := by
  have h : (punctuators.all fun p => !p.toList.contains '$') = true := by
    decide +kernel
  simpa using h

/-- A token that ends with a sigil is not followed by more of a name. -/
theorem scan_completes (inType : Bool) (pos : Nat) (cs : List Char) :
    Cursor.Completes ⟨pos, cs⟩ (scan inType pos cs).2.pos := by
  unfold scan
  split
  · exact (Cursor.Plainly.refl _).completes
  · rename_i c rest
    split
    · exact (scanWord_ends pos _).completes
    · rename_i hword
      split
      · exact (scanNumber_plainly pos (c :: rest)).completes
      · split
        · rename_i hquote
          rw [Bool.or_eq_true] at hquote
          refine (Cursor.Ends.step c ?_).completes
          rcases hquote with hc | hc
          · rw [eq_of_beq hc]
            exact scanString_ends (by decide) rfl (pos + 1) rest
          · rw [eq_of_beq hc]
            exact scanString_ends (by decide) rfl (pos + 1) rest
        · split
          · rename_i hc
            obtain rfl := eq_of_beq hc
            split
            · rename_i stop more htemplate
              exact (Cursor.Ends.step '\x60' (scanTemplate_ends htemplate)).completes
            · exact (Cursor.Plainly.refl _).completes
          · split
            · rename_i p hp
              have hmem := List.mem_of_find?_eq_some hp
              have hprefix : p.toList <+: c :: rest := by
                have := List.find?_some hp
                rw [isPunctuator, Bool.and_eq_true] at this
                exact List.isPrefixOf_iff_prefix.mp this.1
              obtain ⟨behind, hbehind⟩ := hprefix
              refine ⟨p.toList, behind, hbehind.symm, ?_, fun hlast =>
                absurd (List.mem_of_getLast? hlast) (punctuators_plain p hmem)⟩
              rw [width_of_bytes (punctuators_bytes p hmem), String.length_toList]
            · -- a sigil would have started a word
              refine ⟨[c], rest, rfl, by simp, fun hlast => ?_⟩
              obtain rfl : c = '$' := by simpa using hlast
              exact absurd (by decide) hword

end Lexer

/-- The token stands in the text, between two places where a word may end. -/
structure Token.Sited (text : List Char) (t : Token) : Prop where
  cuts_lo : Cuts text t.lo
  lo_closes : Closes text t.lo
  opens : t.text ≠ [] → Opens text t.lo t.start
  start : Cursor.Into text ⟨t.start, t.text⟩
  start_closes : Closes text t.start
  stop : Cursor.Into text ⟨t.hi, t.rest⟩
  closes : Closes text t.hi
  kind : Lexer.KindAt ⟨t.start, t.text⟩ ⟨t.hi, t.rest⟩ t.kind

section Tokens

variable {text : List Char} {t : Token}

/-- The next token stands in the text. -/
theorem Lexer.next_sited {inType fresh : Bool} {pos : Nat} {cs : List Char}
    (h : Cursor.Into text ⟨pos, cs⟩) (hcloses : Closes text pos) :
    (Lexer.next inType fresh pos cs).Sited text := by
  have hgap := skipBlank_behind inType none .between fresh pos cs
  have hstart : Cursor.Into text (skipBlank inType none .between fresh pos cs).stop :=
    Cursor.Follows.trans h hgap.1
  have hstart_closes : Closes text (skipBlank inType none .between fresh pos cs).stop.pos :=
    .of_completes h hcloses (skipBlank_ends inType none .between fresh pos cs).completes
  generalize hg : skipBlank inType none .between fresh pos cs = gap at hgap hstart hstart_closes
  have hscan : ∀ found, found = (if gap.fresh && startsBase gap.stop.text then
        (.fault .conflictMarker gap.stop.pos, ⟨gap.stop.pos, gap.stop.text⟩)
      else scan inType gap.stop.pos gap.stop.text) →
      ScansAt gap.stop found ∧ Closes text found.2.pos := by
    rintro _ rfl
    split
    · exact ⟨⟨.refl _, .here _⟩, hstart_closes⟩
    · exact ⟨scan_scans inType gap.stop.pos gap.stop.text,
        .of_completes hstart hstart_closes (scan_completes inType gap.stop.pos gap.stop.text)⟩
  obtain ⟨hscans, hstop_closes⟩ := hscan _ rfl
  have hlo : Cuts text (gap.mark?.getD gap.stop.pos) ∧
      Opens text (gap.mark?.getD gap.stop.pos) gap.stop.pos := by
    cases hm : gap.mark? with
    | none => exact ⟨hstart.cuts, .inl rfl⟩
    | some m =>
      obtain ⟨hsees, hle⟩ := (hgap.2 m hm).resolve_left (by simp)
      obtain ⟨raw, sign, rest, htext, hpos, hsign⟩ := hsees.of_follows h
      rw [Nat.zero_add] at hpos
      exact ⟨isBoundary_iff.mpr ⟨raw, sign :: rest, htext, hpos.symm⟩, .inr ⟨hle, sign,
        charAt?_eq_some_iff.mpr ⟨raw, rest, htext, hpos.symm⟩, hsign⟩⟩
  unfold next
  rw [hg]
  exact ⟨hlo.1, hlo.2.closes hstart_closes, fun _ => hlo.2, hstart, hstart_closes,
    Cursor.Follows.trans hstart hscans.1, hstop_closes, hscans.2⟩

theorem closes_zero (text : List Char) : Closes text 0 :=
  .of_split (a := []) rfl (by simp)

/-- So does the first, whatever the text starts with. -/
theorem Lexer.first_sited (text : List Char) : (Lexer.first text).Sited text := by
  have hinto : Cursor.Into text ⟨0, text⟩ := .refl _
  have hzero := closes_zero text
  unfold Lexer.first
  split
  · rename_i rest
    have hends := @skipWhile_ends (fun c => !isLineEnd c)
      (fun c hc => isExtender_of_isLineEnd (by simpa using hc)) 0 ('#' :: '!' :: rest)
    exact ⟨hinto.cuts, hzero, fun _ => .inl rfl, hinto, hzero, skipWhile_follows _ _ _,
      .of_completes hinto hzero hends.completes, trivial⟩
  · have hnext := @Lexer.next_sited text false true 0 text hinto hzero
    dsimp only
    split
    · rename_i heof
      have hkind : (Lexer.next false true 0 text).kind = .eof := by
        unfold Token.isEof at heof
        split at heof
        · assumption
        · simp at heof
      have hempty := hnext.kind
      rw [hkind] at hempty
      refine ⟨hinto.cuts, hzero, fun hne => absurd hempty hne, hnext.start, hnext.start_closes,
        .ended (.here _), hzero, ?_⟩
      rw [hkind]
      exact hempty
    · exact hnext

theorem Mode.settle_sited {m : Mode} (h : t.Sited text) : (m.settle t).Sited text := by
  have hkind := h.kind
  unfold Mode.settle
  split
  · rename_i name word hword
    split
    · exact h
    · rw [hword] at hkind
      obtain ⟨raw, hat, hname, hword⟩ := hkind
      exact ⟨h.cuts_lo, h.lo_closes, h.opens, h.start, h.start_closes, h.stop, h.closes, raw, hat,
        hname, by simpa using hword⟩
  · exact h

theorem Mode.behind_sited {m : Mode} (h : t.Sited text) : (m.behind t).Sited text :=
  Mode.settle_sited (Lexer.next_sited h.stop h.closes)

/-- A word is spelled where its token stands. -/
theorem Token.Sited.spelled (h : t.Sited text) {raw : List Char}
    (hat : Lexer.WordAt ⟨t.start, t.text⟩ raw ⟨t.hi, t.rest⟩) (hwrites : Writes raw name) :
    Spelled text ⟨name, ⟨t.lo, t.hi⟩⟩ := by
  obtain ⟨htext, hpos, hword⟩ := hat
  obtain ⟨front, rest, hfront, hstart, hrest⟩ := h.start
  dsimp only at hfront hstart htext hpos
  have hne : t.text ≠ [] := by
    rw [htext]
    exact List.append_ne_nil_of_left_ne_nil hword.filled _
  obtain rfl := hrest.resolve_right hne
  refine ⟨h.cuts_lo, front, raw, t.rest, by rw [hfront, htext, List.append_assoc], ?_, ?_, hwrites,
    hword⟩
  · have hwidth : width front = t.start := by omega
    rw [hwidth]
    exact h.opens hne
  · dsimp only
    omega

theorem Token.Sited.spelled_word (h : t.Sited text) {role : Option String}
    (hkind : t.kind = .word name role) :
    Spelled text ⟨name, ⟨t.lo, t.hi⟩⟩ ∧ ∀ w ∈ role, Spelled text ⟨w, ⟨t.lo, t.hi⟩⟩ := by
  have hat := h.kind
  rw [hkind] at hat
  obtain ⟨raw, hat, hname, hrole⟩ := hat
  exact ⟨h.spelled hat hname, fun w hw => h.spelled hat (hrole w hw)⟩

theorem Token.Sited.spelled_escaped (h : t.Sited text) {word : String}
    (hkind : t.kind = .escapedWord name word) : Spelled text ⟨name, ⟨t.lo, t.hi⟩⟩ := by
  have hat := h.kind
  rw [hkind] at hat
  obtain ⟨raw, hat, hname, _⟩ := hat
  exact h.spelled hat hname

/-- A token that plays the role of a word spells it. -/
theorem Token.Sited.spelled_role (h : t.Sited text) {word : String} (hword : word ≠ "")
    (hrole : t.isWord word = true) : Spelled text ⟨word, ⟨t.lo, t.hi⟩⟩ := by
  rw [Token.isWord, beq_iff_eq] at hrole
  unfold Token.role at hrole
  split at hrole
  · rename_i name role hkind
    cases role with
    | none => exact absurd hrole.symm hword
    | some w => exact (h.spelled_word hkind).2 word (by simpa using hrole)
  · exact absurd hrole.symm hword

/-- Behind the first character of a token, if that takes one byte. -/
theorem Token.follows_byte {c : Char} (htext : t.text = c :: rest) (hc : c.utf8Size = 1) :
    Cursor.Follows ⟨t.start, t.text⟩ ⟨t.start + 1, t.text.drop 1⟩ := by
  rw [htext]
  exact .byte hc t.start rest

theorem Token.completes_byte {c : Char} (htext : t.text = c :: rest)
    (hc : c ≠ '$') (hsize : c.utf8Size = 1) :
    Cursor.Completes ⟨t.start, t.text⟩ (t.start + 1) := by
  rw [htext]
  exact (Cursor.Ends.byte hc hsize t.start rest).completes

theorem Token.kind_of_isPunct {p : String} (h : t.isPunct p = true) : t.kind = .punct p := by
  unfold Token.isPunct at h
  split at h
  · rename_i q hkind
    rw [hkind, beq_iff_eq.mp h]
  · simp at h

/-- Behind the first character of a sign. -/
theorem Token.Sited.behind_sign (h : t.Sited text) {p : String} (hkind : t.kind = .punct p)
    (hcomma : p ≠ ",") {c : Char} (hc : p.toList.head? = some c) (hsize : c.utf8Size = 1) :
    ∃ rest, t.text = c :: rest ∧
      Cursor.Follows ⟨t.start, t.text⟩ ⟨t.start + 1, t.text.drop 1⟩ := by
  have hat := h.kind
  rw [hkind] at hat
  obtain ⟨back, hback⟩ := hat.resolve_left hcomma
  obtain ⟨more, hmore⟩ := List.head?_eq_some_iff.mp hc
  have htext : t.text = c :: (more ++ back) := by
    rw [hmore] at hback
    exact hback.symm
  exact ⟨more ++ back, htext, follows_byte htext hsize⟩

end Tokens

end RefSugar.Syntax

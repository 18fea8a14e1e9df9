import RefSugar.Proofs.Escapes
import RefSugar.Sigil.Trigger
import RefSugar.Syntax.Reader

/-! Where tokens stand and how names are spelled. Every token of a text lies between two characters
of it, and a name is written where its token stands, with escapes or as it is. -/
namespace RefSugar.Syntax

open Text

variable {c : Cursor} {cs raw : List Char} {pos : Nat}

def Cuts (text : List Char) (p : Nat) : Prop :=
  isBoundary p text = true

def Cursor.Into (text : List Char) (c : Cursor) : Prop :=
  Cursor.Follows ⟨0, text⟩ c

/-- A character that goes on with no name stands at the offset, behind the cursor. -/
def Cursor.SeesSign (c : Cursor) (p : Nat) : Prop :=
  ∃ raw sign rest, c.text = raw ++ sign :: rest ∧ p = c.pos + width raw ∧ isExtender sign = false

theorem Cursor.SeesSign.of_follows {d : Cursor} {p : Nat} (h : c.Follows d)
    (h' : d.SeesSign p) : c.SeesSign p := by
  obtain ⟨raw, rest, htext, hpos, hrest⟩ := h
  obtain ⟨raw', sign, rest', htext', rfl, hsign⟩ := h'
  obtain rfl := hrest.resolve_right (by simp [htext'])
  refine ⟨raw ++ raw', sign, rest', by rw [htext, htext', List.append_assoc], ?_, hsign⟩
  rw [hpos, width_append, Nat.add_assoc]

theorem cuts_of_sees {text : List Char} {p : Nat} (h : c.Into text) (hp : c.Sees p) :
    Cuts text p := by
  obtain ⟨raw, rest, htext, hpos⟩ := Cursor.Sees.of_follows h hp
  exact isBoundary_iff.mpr ⟨raw, rest, htext, by simpa using hpos.symm⟩

theorem Cursor.Into.cuts {text : List Char} (h : c.Into text) : Cuts text c.pos :=
  cuts_of_sees h (.here c)

/-- A name as it may be written: as it is, or with escapes. -/
structure Writes (raw : List Char) (name : String) : Prop where
  plain : '\\' ∉ raw → name.toList = raw
  last : ∀ c, raw.getLast? = some c → c.utf8Size = 1 ∨ name.toList.getLast? = some c
  whole : name.toList = raw ∨ Spells raw name.toList

/-- What starts at `start` counts as starting at `lo`: there too, or where a comment that needs no
slash starts in front of it, with a sign. -/
def Opens (text : List Char) (lo start : Nat) : Prop :=
  lo = start ∨ lo ≤ start ∧ ∃ c, charAt? lo text = some c ∧ isExtender c = false

theorem Opens.le {text : List Char} {lo start : Nat} (h : Opens text lo start) : lo ≤ start := by
  rcases h with rfl | ⟨hle, _⟩
  · exact Nat.le_refl _
  · exact hle

/-- The name is written at the end of its span. A comment that needs no slash may stand at the start
of the span. -/
def Stands (text : List Char) (id : Ident) : Prop :=
  Cuts text id.span.lo ∧ ∃ front raw back, text = front ++ raw ++ back ∧
    Opens text id.span.lo (width front) ∧ width front + width raw = id.span.hi ∧ Writes raw id.name

/-- What is written makes up a word that could not be longer. -/
structure IsWord (raw back : List Char) : Prop where
  filled : raw ≠ []
  spells : ∃ chars, Spells raw chars
  ends : EndsName back

/-- The identifier is written at the end of its span, as a whole word. -/
def Spelled (text : List Char) (id : Ident) : Prop :=
  Cuts text id.span.lo ∧ ∃ front raw back, text = front ++ raw ++ back ∧
    Opens text id.span.lo (width front) ∧ width front + width raw = id.span.hi ∧
    Writes raw id.name ∧ IsWord raw back

section Spelled

variable {text : List Char} {id : Ident}

theorem Spelled.stands (h : Spelled text id) : Stands text id := by
  obtain ⟨hlo, front, raw, back, htext, hle, hhi, hwrites, _⟩ := h
  exact ⟨hlo, front, raw, back, htext, hle, hhi, hwrites⟩

theorem Stands.cuts_lo (h : Stands text id) : Cuts text id.span.lo :=
  h.1

theorem Spelled.cuts_lo (h : Spelled text id) : Cuts text id.span.lo :=
  h.1

theorem Stands.cuts_hi (h : Stands text id) : Cuts text id.span.hi := by
  obtain ⟨_, front, raw, back, htext, _, hhi, _⟩ := h
  exact isBoundary_iff.mpr ⟨front ++ raw, back, htext, by rw [width_append, hhi]⟩

/-- A sigil at the end of a name is written in one byte, even if that is the end of an escape. -/
theorem Writes.last_byte {name : String} (h : Writes raw name)
    (hsigil : Sigil.endsWithSigil name = true) : ∃ init c, raw = init ++ [c] ∧ c.utf8Size = 1 := by
  rw [Sigil.endsWithSigil, beq_iff_eq] at hsigil
  have hraw : raw ≠ [] := by
    rintro rfl
    simp [h.plain (by simp)] at hsigil
  obtain ⟨init, c, rfl⟩ : ∃ init c, raw = init ++ [c] :=
    ⟨raw.dropLast, raw.getLast hraw, (List.dropLast_concat_getLast hraw).symm⟩
  refine ⟨init, c, rfl, ?_⟩
  rcases h.last c (by simp) with hc | hc
  · exact hc
  · rw [hsigil, Option.some.injEq] at hc
    exact hc ▸ rfl

theorem Stands.cuts_sigil (h : Stands text id) (hsigil : Sigil.endsWithSigil id.name = true) :
    Cuts text (id.span.hi - 1) := by
  obtain ⟨_, front, raw, back, htext, _, hhi, hwrites⟩ := h
  obtain ⟨init, c, rfl, hc⟩ := hwrites.last_byte hsigil
  refine isBoundary_iff.mpr ⟨front ++ init, [c] ++ back, by simp [htext], ?_⟩
  simp only [width_append, width_cons, width_nil, hc] at hhi ⊢
  omega

end Spelled

namespace Lexer

theorem skipWhile_spec (p : Char → Bool) (pos : Nat) (cs : List Char) :
    ∃ raw, cs = raw ++ (skipWhile p pos cs).text ∧
      (skipWhile p pos cs).pos = pos + width raw ∧ (∀ c ∈ raw, p c = true) ∧
      ∀ c, (skipWhile p pos cs).text.head? = some c → p c = false := by
  fun_induction skipWhile p pos cs with
  | case1 pos => exact ⟨[], by simp⟩
  | case2 pos c cs hc ih =>
    obtain ⟨raw, htext, hpos, hall, hhead⟩ := ih
    exact ⟨c :: raw, congrArg (c :: ·) htext, by rw [hpos, width_cons]; omega, by simpa [hc], hhead⟩
  | case3 pos c cs hc => exact ⟨[], by simp [hc]⟩

theorem skipWhile_follows (p : Char → Bool) (pos : Nat) (cs : List Char) :
    Cursor.Follows ⟨pos, cs⟩ (skipWhile p pos cs) := by
  obtain ⟨raw, htext, hpos, _⟩ := skipWhile_spec p pos cs
  exact ⟨raw, _, htext, hpos, .inl rfl⟩

theorem isExtender_of_startsMark {inType fresh : Bool} {c : Char}
    (h : startsMark inType fresh (c :: cs) = true) : isExtender c = false := by
  have hsign : c = '<' ∨ c = '-' ∨ c = '>' ∨ c = '=' := by
    simp only [startsMark, startsSide, startsDivider, String.reduceToList, List.any_cons,
      List.any_nil, Bool.or_false, Bool.or_eq_true, Bool.and_eq_true, List.isPrefixOf_iff_prefix,
      List.cons_prefix_cons] at h
    grind
  rcases hsign with rfl | rfl | rfl | rfl <;> decide +kernel

/-- The gap stands behind a cursor, and so does the first comment in it that needs no slash, unless
one was found before. -/
def Gap.Behind (c : Cursor) (mark? : Option Nat) (gap : Gap) : Prop :=
  c.Follows gap.stop ∧
    ∀ m, gap.mark? = some m → mark? = some m ∨ c.SeesSign m ∧ m ≤ gap.stop.pos

theorem Gap.Behind.step {c d : Cursor} {mark? : Option Nat} {gap : Gap} (h : c.Follows d)
    (hgap : gap.Behind d mark?) : gap.Behind c mark? := by
  refine ⟨h.trans hgap.1, ?_⟩
  intro m hm
  rcases hgap.2 m hm with hm | ⟨hm, hle⟩
  · exact .inl hm
  · exact .inr ⟨.of_follows h hm, hle⟩

theorem Gap.Behind.mark {d : Cursor} {mark? : Option Nat} {gap : Gap} (h : c.Follows d)
    (hsign : c.SeesSign c.pos) (hgap : gap.Behind d (mark?.or (some c.pos))) :
    gap.Behind c mark? := by
  refine ⟨h.trans hgap.1, ?_⟩
  intro m hm
  rcases hgap.2 m hm with hm | ⟨hm, hle⟩
  · rcases Option.or_eq_some_iff.mp hm with hm | ⟨_, hm⟩
    · exact .inl hm
    · obtain rfl := Option.some.inj hm
      exact .inr ⟨hsign, (h.trans hgap.1).le⟩
  · exact .inr ⟨.of_follows h hm, hle⟩

/-- Skipping stays in the text, and remembers the first comment that needs no slash. -/
theorem skipBlank_behind (inType : Bool) (mark? : Option Nat) (blank : Blank) (fresh : Bool)
    (pos : Nat) (cs : List Char) :
    (skipBlank inType mark? blank fresh pos cs).Behind ⟨pos, cs⟩ mark? := by
  fun_induction skipBlank inType mark? blank fresh pos cs with
  | case1 mark? => exact ⟨.refl _, fun m hm => .inl hm⟩
  | case2 mark? fresh pos cs ih => exact .step (.skip ['*', '/'] cs) ih
  | case3 mark? fresh pos c cs _ ih => exact .step (.step pos c cs) ih
  | case4 mark? fresh pos c cs _ ih => exact .step (.step pos c cs) ih
  | case5 mark? fresh pos c cs _ ih => exact .step (.step pos c cs) ih
  | case6 mark? fresh pos cs ih => exact .step (.skip ['/', '/'] cs) ih
  | case7 mark? fresh pos cs ih => exact .step (.skip ['/', '*'] cs) ih
  | case8 mark? fresh pos c cs _ _ _ ih => exact .step (.step pos c cs) ih
  | case9 mark? fresh pos c cs _ _ _ hmark ih =>
    exact .mark (.step pos c cs) ⟨[], c, cs, rfl, rfl, isExtender_of_startsMark hmark⟩ ih
  | case10 mark? fresh pos c cs => exact ⟨.refl _, fun m hm => .inl hm⟩

/-- What the scan of a name gives that starts with the characters `chars`, last first. -/
structure Name.Scanned (chars : List Char) (escaped : Bool) (c : Cursor) (raw : List Char)
    (name : Name) : Prop where
  text : c.text = raw ++ name.stop.text
  pos : name.stop.pos = c.pos + width raw
  keeps : raw = [] → name.chars = chars
  stays : escaped = true → name.escaped = true
  plain : name.escaped = false → '\\' ∉ raw ∧ name.chars = raw.reverse ++ chars
  shows : name.fault? = none → name.escaped = true → escaped = true ∨ '\\' ∈ raw
  last : ∀ d, raw.getLast? = some d → d.utf8Size = 1 ∨ name.chars.head? = some d
  fault : ∀ f, name.fault? = some f → c.Sees f.offset

/-- One more character in front, which belongs to an escape if `escaped`. -/
theorem Name.Scanned.cons {chars chars' raw cs : List Char} {escaped escaped' : Bool} {pos : Nat}
    {a : Char} {name : Name}
    (h : name.Scanned chars' escaped' ⟨pos + a.utf8Size, cs⟩ raw)
    (hplain : escaped' = false → a ≠ '\\' ∧ chars' = a :: chars)
    (hescaped : escaped = true → escaped' = true)
    (hshows : escaped' = true → escaped = true ∨ a = '\\')
    (hlast : a.utf8Size = 1 ∨ chars' = a :: chars) :
    name.Scanned chars escaped ⟨pos, a :: cs⟩ (a :: raw) where
  text := congrArg (a :: ·) h.text
  pos := by
    rw [h.pos, width_cons]
    exact Nat.add_assoc _ _ _
  keeps := by simp
  stays := fun hesc => h.stays (hescaped hesc)
  plain := by
    intro hname
    have hesc : escaped' = false := by
      cases hcases : escaped' with
      | false => rfl
      | true => rw [h.stays hcases] at hname; exact hname
    obtain ⟨ha, rfl⟩ := hplain hesc
    obtain ⟨hraw, hchars⟩ := h.plain hname
    exact ⟨by simp [Ne.symm ha, hraw], by simp [hchars]⟩
  shows := by
    intro hfault hname
    rcases h.shows hfault hname with hesc | hraw
    · exact (hshows hesc).imp id fun ha => by simp [ha]
    · exact .inr (List.mem_cons_of_mem a hraw)
  last := by
    intro d hd
    by_cases hraw : raw = []
    · subst hraw
      obtain rfl : a = d := by simpa using hd
      rcases hlast with hsize | hchars
      · exact .inl hsize
      · exact .inr (by rw [h.keeps rfl, hchars]; rfl)
    · rw [List.getLast?_cons_of_ne_nil hraw] at hd
      exact h.last d hd
  fault := fun f hf => .of_follows (.step pos a cs) (h.fault f hf)

/-- A name is read up to where it could not be longer. -/
theorem scanName_scanned (chars : List Char) (escaped : Bool) (n pos : Nat) (cs : List Char)
    (hn : BytesFront n cs) (hescaped : 0 < n → escaped = true) :
    ∃ raw, (scanName chars escaped n pos cs).Scanned chars escaped ⟨pos, cs⟩ raw := by
  fun_induction scanName chars escaped n pos cs with
  | case1 chars escaped n pos => exact ⟨[], by constructor <;> simp⟩
  | case2 chars escaped n pos c cs ih =>
    -- a character of an escape
    have hc : c.utf8Size = 1 := hn.2 c (by simp)
    have hcs : BytesFront n cs :=
      ⟨Nat.le_of_succ_le_succ hn.1, fun d hd => hn.2 d (by simp [hd])⟩
    obtain rfl := hescaped (Nat.succ_pos n)
    obtain ⟨raw, h⟩ := ih hcs fun _ => rfl
    have h : (scanName chars true n (pos + 1) cs).Scanned chars true ⟨pos + c.utf8Size, cs⟩ raw := by
      rw [hc]
      exact h
    exact ⟨c :: raw, h.cons (by simp) id .inl (.inl hc)⟩
  | case3 chars escaped pos c cs hc ih =>
    have hslash : c ≠ '\\' := by
      rintro rfl
      exact absurd hc (by decide)
    obtain ⟨raw, h⟩ := ih (.zero cs) (by simp)
    exact ⟨c :: raw, h.cons (fun _ => ⟨hslash, rfl⟩) id .inl (.inr rfl)⟩
  | case4 chars escaped pos c cs hc hslash p hp ih =>
    obtain rfl := eq_of_beq hslash
    obtain ⟨raw, h⟩ := ih (Escape.inName_ok hp) fun _ => rfl
    exact ⟨_, Name.Scanned.cons (a := '\\') h (by simp) (by simp) (fun _ => .inr rfl) (.inl rfl)⟩
  | case5 chars escaped pos c cs hc hslash f hf =>
    obtain rfl := eq_of_beq hslash
    have hsees := (Escape.inName_error hf).sees pos
    exact ⟨[], by constructor <;> simp [hsees]⟩
  | case6 chars escaped pos c cs hc hslash =>
    exact ⟨[], by constructor <;> simp⟩

/-- The characters `raw` of a word, which could not be longer, stand between the cursors. -/
def WordAt (start : Cursor) (raw : List Char) (stop : Cursor) : Prop :=
  start.text = raw ++ stop.text ∧ stop.pos = start.pos + width raw ∧ IsWord raw stop.text

/-- A kind of token that starts at `start` and ends at `stop`: how a name is written, what a sign or
a piece of a template starts with, where a fault is, and that nothing stands at the end. A comma may
stand for anything. -/
def KindAt (start : Cursor) (stop : Cursor) : Token.Kind → Prop
  | .word name role => ∃ raw, WordAt start raw stop ∧ Writes raw name ∧ ∀ w ∈ role, Writes raw w
  | .escapedWord name word => ∃ raw, WordAt start raw stop ∧ Writes raw name ∧ Writes raw word
  | .punct p => p = "," ∨ p.toList <+: start.text
  | .template _ => ∃ c rest, start.text = c :: rest ∧ c.utf8Size = 1
  | .fault _ offset => start.Sees offset
  | .eof => start.text = []
  | _ => True

def ScansAt (start : Cursor) (found : Token.Kind × Cursor) : Prop :=
  start.Follows found.2 ∧ KindAt start found.2 found.1

theorem front_eq {rest : List Char} :
    front (raw ++ rest) ⟨pos, rest⟩ = raw := by
  simp [front]

/-- A scan that starts as a word does gives a word. -/
theorem scanName_isWord {c : Char} (hc : (isStarter c || c == '\\') = true)
    (hfault : (scanName [] false 0 pos (c :: cs)).fault? = none)
    (htext : c :: cs = raw ++ (scanName [] false 0 pos (c :: cs)).stop.text) :
    IsWord raw (scanName [] false 0 pos (c :: cs)).stop.text ∧
      Spells raw (scanName [] false 0 pos (c :: cs)).chars.reverse := by
  obtain ⟨esc, raw', spelled, hcs, hlength, hspells, hchars, hends⟩ :=
    scanName_spells [] false 0 pos (c :: cs) (Nat.zero_le _) hfault
  obtain rfl := List.length_eq_zero_iff.mp hlength
  obtain rfl : raw = raw' := List.append_cancel_right (htext.symm.trans hcs)
  refine ⟨⟨?_, ⟨spelled, hspells⟩, hends⟩, by simpa [hchars] using hspells⟩
  -- a scan that takes nothing stops at a character that goes on with no name
  rintro rfl
  rw [List.nil_append] at htext
  rw [EndsName, ← htext, List.head?_cons, Option.any_some, Bool.or_eq_false_iff] at hends
  rw [Bool.or_eq_true] at hc
  rcases hc with hc | hc
  · simp [isExtender, hc] at hends
  · simp [hc] at hends

/-- A word gives a token that is spelled by the text under it. -/
theorem scanWord_scans (pos : Nat) {c : Char}
    (hc : (isStarter c || c == '\\') = true) : ScansAt ⟨pos, c :: cs⟩ (scanWord pos (c :: cs)) := by
  obtain ⟨raw, h⟩ := scanName_scanned [] false 0 pos (c :: cs) (.zero _) (by simp)
  have hfollows : Cursor.Follows ⟨pos, c :: cs⟩ (scanName [] false 0 pos (c :: cs)).stop :=
    ⟨raw, _, h.text, h.pos, .inl rfl⟩
  unfold scanWord
  dsimp only
  split
  · rename_i f hf
    exact ⟨hfollows, h.fault f hf⟩
  · rename_i hfault
    refine ⟨hfollows, ?_⟩
    obtain ⟨hisWord, hspells⟩ := scanName_isWord hc hfault h.text
    have hword : WordAt ⟨pos, c :: cs⟩ raw (scanName [] false 0 pos (c :: cs)).stop :=
      ⟨h.text, h.pos, hisWord⟩
    have hlast : ∀ d, raw.getLast? = some d → d.utf8Size = 1 ∨
        (String.ofList (scanName [] false 0 pos (c :: cs)).chars.reverse).toList.getLast? =
          some d := by
      intro d hd
      rw [String.toList_ofList, List.getLast?_reverse]
      exact h.last d hd
    have hwhole {name : String}
        (hname : name = String.ofList (scanName [] false 0 pos (c :: cs)).chars.reverse) :
        name.toList = raw ∨ Spells raw name.toList := by
      rw [hname, String.toList_ofList]
      exact .inr hspells
    dsimp only
    split
    · rename_i hplain
      rw [Bool.not_eq_true'] at hplain
      have hwrites : Writes raw (String.ofList (scanName [] false 0 pos (c :: cs)).chars.reverse) :=
        ⟨fun _ => by simp [(h.plain hplain).2], hlast, hwhole rfl⟩
      exact ⟨raw, hword, hwrites, by simpa using hwrites⟩
    · rename_i hescaped
      rw [Bool.not_eq_true', Bool.not_eq_false] at hescaped
      have hslash : '\\' ∈ raw := (h.shows hfault hescaped).resolve_left (by simp)
      have hwrites : Writes raw (String.ofList (scanName [] false 0 pos (c :: cs)).chars.reverse) :=
        ⟨fun hno => absurd hslash hno, hlast, hwhole rfl⟩
      split
      · have hfront : front (c :: cs) (scanName [] false 0 pos (c :: cs)).stop = raw := by
          conv =>
            lhs
            arg 1
            rw [show c :: cs = raw ++ (scanName [] false 0 pos (c :: cs)).stop.text from h.text]
          exact front_eq
        refine ⟨raw, hword, ⟨fun hno => absurd hslash hno, ?_, ?_⟩, hwrites⟩
        · intro d hd
          rw [hfront, String.toList_ofList]
          exact .inr hd
        · rw [hfront, String.toList_ofList]
          exact .inl rfl
      · exact ⟨raw, hword, hwrites, by simp⟩

theorem scanString_scans (quote : Char) (hquote : quote.utf8Size = 1) (start : Cursor) (pos : Nat)
    (cs : List Char) (h : start.Follows ⟨pos, cs⟩) : ScansAt start (scanString quote pos cs) := by
  fun_induction scanString quote pos cs with
  | case1 pos => exact ⟨h, trivial⟩
  | case2 pos cs ih => exact ih (h.trans (.skip ['\\', '\r', '\n'] cs))
  | case3 pos => exact ⟨h.trans (.byte rfl pos []), h.sees⟩
  | case4 pos c cs _ _ f => exact ⟨h.trans (.byte rfl pos _), h.sees⟩
  | case5 pos c cs _ _ ih => exact ih (h.trans ((Cursor.Follows.byte rfl pos _).trans (.step _ c cs)))
  | case6 pos c cs _ _ _ hc =>
    obtain rfl := eq_of_beq hc
    exact ⟨h.trans (.byte hquote pos cs), trivial⟩
  | case7 => exact ⟨h, trivial⟩
  | case8 pos c cs _ _ _ _ _ ih => exact ih (h.trans (.step pos c cs))

theorem scanTemplate_follows {stop : Cursor} {more : Bool}
    (h : scanTemplate pos cs = some (stop, more)) : Cursor.Follows ⟨pos, cs⟩ stop := by
  fun_induction scanTemplate pos cs with
  | case1 => simp at h
  | case2 pos c cs ih =>
    exact ((Cursor.Follows.byte rfl pos _).trans (.step _ c cs)).trans (ih h)
  | case3 pos cs =>
    simp only [Option.some.injEq, Prod.mk.injEq] at h
    exact h.1 ▸ .skip ['$', '\x7b'] cs
  | case4 pos c cs _ _ hc =>
    obtain rfl := eq_of_beq hc
    simp only [Option.some.injEq, Prod.mk.injEq] at h
    exact h.1 ▸ .byte rfl pos cs
  | case5 pos c cs _ _ _ ih => exact (Cursor.Follows.step pos c cs).trans (ih h)

theorem scanRegex_follows {inClass : Bool} {stop : Cursor}
    (h : scanRegex inClass pos cs = some stop) : Cursor.Follows ⟨pos, cs⟩ stop := by
  fun_induction scanRegex inClass pos cs with
  | case1 => simp at h
  | case2 => simp at h
  | case3 inClass pos c cs _ ih =>
    exact ((Cursor.Follows.byte rfl pos _).trans (.step _ c cs)).trans (ih h)
  | case4 => simp at h
  | case5 inClass pos c cs _ _ hc =>
    rw [Bool.and_eq_true] at hc
    obtain rfl := eq_of_beq hc.1
    exact Option.some.inj h ▸ .byte rfl pos cs
  | case6 inClass pos c cs _ _ _ ih => exact (Cursor.Follows.step pos c cs).trans (ih h)

theorem scanFlags_scans (start stop : Cursor) (h : start.Follows stop) :
    ScansAt start (scanFlags stop) := by
  unfold scanFlags
  split
  · obtain ⟨raw, hname⟩ := scanName_scanned [] false 0 stop.pos stop.text (.zero _) (by simp)
    have hfollows : stop.Follows (scanName [] false 0 stop.pos stop.text).stop :=
      ⟨raw, _, hname.text, hname.pos, .inl rfl⟩
    dsimp only
    split
    · rename_i f hf
      exact ⟨h.trans hfollows, .of_follows h (hname.fault f hf)⟩
    · exact ⟨h.trans hfollows, trivial⟩
  · exact ⟨h, trivial⟩

theorem scanBased_scans (base : Nat) (p : Char → Bool) (start : Cursor) (pos : Nat)
    (cs : List Char) (h : start.Follows ⟨pos, cs⟩) : ScansAt start (scanBased base p pos cs) := by
  have hstop := h.trans (skipWhile_follows (fun c => p c || c == '_') pos cs)
  unfold scanBased
  dsimp only
  split
  · exact ⟨h, h.sees⟩
  · split
    · rename_i rest hrest
      refine ⟨hstop.trans ?_, ?_⟩
      · have := Cursor.Follows.byte (a := 'n') rfl (skipWhile (fun c => p c || c == '_') pos cs).pos rest
        rwa [← hrest] at this
      · dsimp only
        split
        · exact h.sees
        · trivial
    · exact ⟨hstop, trivial⟩

theorem scanExponent_scans (start stop : Cursor) (h : start.Follows stop) :
    ScansAt start (scanExponent stop) := by
  obtain ⟨pos, text⟩ := stop
  unfold scanExponent
  dsimp only
  split
  · rename_i e cs
    split
    · rename_i he
      have hsize : e.utf8Size = 1 := by
        rw [Bool.or_eq_true] at he
        rcases he with he | he <;> rw [eq_of_beq he] <;> rfl
      have hbehind := h.trans (.byte hsize pos cs)
      split
      · exact ⟨hbehind, hbehind.sees⟩
      · rename_i s rest
        have hdigits : start.Follows
            (if s == '+' || s == '-' then ⟨pos + 2, rest⟩ else ⟨pos + 1, s :: rest⟩) := by
          split
          · rename_i hs
            have hsize : s.utf8Size = 1 := by
              rw [Bool.or_eq_true] at hs
              rcases hs with hs | hs <;> rw [eq_of_beq hs] <;> rfl
            exact hbehind.trans (.byte hsize (pos + 1) rest)
          · exact hbehind
        generalize (if s == '+' || s == '-' then (⟨pos + 2, rest⟩ : Cursor)
          else ⟨pos + 1, s :: rest⟩) = digits at hdigits ⊢
        split
        · exact ⟨hdigits.trans (skipWhile_follows _ _ _), trivial⟩
        · exact ⟨hdigits, hdigits.sees⟩
    · exact ⟨h, trivial⟩
  · exact ⟨h, trivial⟩

theorem scanDecimal_scans (start : Cursor) (pos : Nat) (cs : List Char)
    (h : start.Follows ⟨pos, cs⟩) : ScansAt start (scanDecimal pos cs) := by
  have hwhole := h.trans (skipWhile_follows isDecimal pos cs)
  unfold scanDecimal
  dsimp only
  split
  · exact ⟨hwhole, trivial⟩
  · have hbyte : ∀ {a : Char} {rest : List Char}, (skipWhile isDecimal pos cs).text = a :: rest →
        a.utf8Size = 1 → start.Follows ⟨(skipWhile isDecimal pos cs).pos + 1, rest⟩ := by
      intro a rest hrest ha
      refine hwhole.trans ?_
      have := Cursor.Follows.byte ha (skipWhile isDecimal pos cs).pos rest
      rwa [← hrest] at this
    split
    · rename_i rest hrest
      exact scanExponent_scans start _ ((hbyte hrest rfl).trans (skipWhile_follows _ _ _))
    · rename_i rest hrest
      split
      · exact ⟨hwhole, trivial⟩
      · exact ⟨hbyte hrest rfl, trivial⟩
    · exact scanExponent_scans start _ hwhole

theorem scanNumber_scans (pos : Nat) (cs : List Char) : ScansAt ⟨pos, cs⟩ (scanNumber pos cs) := by
  unfold scanNumber
  split
  rename_i kind stop hfound
  have hscans : ScansAt ⟨pos, cs⟩ (kind, stop) := by
    rw [← hfound]
    split
    · rename_i b rest
      have hbased : (b.utf8Size = 1) → Cursor.Follows ⟨pos, '0' :: b :: rest⟩ ⟨pos + 2, rest⟩ :=
        fun hb => (Cursor.Follows.byte rfl pos _).trans (.byte hb _ _)
      have hsize : ∀ {x y : Char}, x.utf8Size = 1 → y.utf8Size = 1 → (b == x || b == y) = true →
          b.utf8Size = 1 := by
        intro x y hx hy hb
        rw [Bool.or_eq_true] at hb
        rcases hb with hb | hb
        · exact eq_of_beq hb ▸ hx
        · exact eq_of_beq hb ▸ hy
      split
      · rename_i hb
        exact scanBased_scans _ _ _ _ _ (hbased (hsize rfl rfl hb))
      · split
        · rename_i hb
          exact scanBased_scans _ _ _ _ _ (hbased (hsize rfl rfl hb))
        · split
          · rename_i hb
            exact scanBased_scans _ _ _ _ _ (hbased (hsize rfl rfl hb))
          · exact scanDecimal_scans _ _ _ (.refl _)
    · exact scanDecimal_scans _ _ _ (.refl _)
  -- a name behind the digits is a fault where they end
  split
  · split
    · exact ⟨hscans.1, hscans.1.sees⟩
    · exact hscans
  · exact hscans

theorem punctuators_bytes : ∀ p ∈ punctuators, ∀ c ∈ p.toList, c.utf8Size = 1 := by
  have h : (punctuators.all fun p => p.toList.all fun c => c.utf8Size == 1) = true := by
    decide +kernel
  simpa using h

/-- Every token stands in the text where it says. -/
theorem scan_scans (inType : Bool) (pos : Nat) (cs : List Char) :
    ScansAt ⟨pos, cs⟩ (scan inType pos cs) := by
  unfold scan
  split
  · exact ⟨.refl _, rfl⟩
  · rename_i c rest
    split
    · rename_i hc
      exact scanWord_scans pos hc
    · split
      · exact scanNumber_scans pos (c :: rest)
      · split
        · rename_i hquote
          have hsize : c.utf8Size = 1 := by
            rw [Bool.or_eq_true] at hquote
            rcases hquote with hc | hc <;> rw [eq_of_beq hc] <;> rfl
          exact scanString_scans c hsize _ _ _ (.byte hsize pos rest)
        · split
          · rename_i hc
            obtain rfl := eq_of_beq hc
            have hbyte := Cursor.Follows.byte (a := '\x60') rfl pos rest
            split
            · rename_i stop more htemplate
              exact ⟨hbyte.trans (scanTemplate_follows htemplate), '\x60', rest, rfl, rfl⟩
            · exact ⟨.ended (.here _), .here _⟩
          · split
            · rename_i p hp
              have hprefix : p.toList <+: c :: rest := by
                have := List.find?_some hp
                rw [isPunctuator, Bool.and_eq_true] at this
                exact List.isPrefixOf_iff_prefix.mp this.1
              obtain ⟨behind, hbehind⟩ := hprefix
              have hwidth : width p.toList = p.length := by
                rw [width_of_bytes (punctuators_bytes p (List.mem_of_find?_eq_some hp)),
                  String.length_toList]
              refine ⟨⟨p.toList, behind, hbehind.symm, by rw [hwidth], .inl ?_⟩, .inr ⟨behind, hbehind⟩⟩
              rw [← hbehind, ← String.length_toList, List.drop_left]
            · exact ⟨.step pos c rest, .here _⟩

end Lexer

end RefSugar.Syntax

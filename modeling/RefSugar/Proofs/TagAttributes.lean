import Mathlib
import RefSugar.Proofs.Pages
import RefSugar.Proofs.RegionSearch

/-! Script tags whose attributes have quoted values. The tag ends at its first angle and attributes
end at blanks, also inside quotes. Main statement: without angles in its values a script is found in
its place, with the attributes that the words of its tag read as; with an angle in a value it is not
found in its place. -/
namespace RefSugar.Document

open Text

def isNameChar (c : Char) : Bool :=
  !isSpace c && !isQuote c && c != '=' && c != '/' && c != '>'

/-- An attribute as it is written: a name, or a name and a value in double quotes. -/
structure TagAttr where
  name : List Char
  value : Option (List Char)
  named : name.all isNameChar = true
  quoted : ∀ v ∈ value, '"' ∉ v

namespace TagAttr

def render (a : TagAttr) : List Char :=
  ' ' :: a.name ++
    match a.value with
    | none => []
    | some v => '=' :: '"' :: v ++ ['"']

/-- What a value in quotes reads as: what stands in front of its first blank, without the quotes
around it. -/
def taken (v : List Char) : List Char :=
  dropEnd isQuote (('"' :: (v ++ ['"']).takeWhile fun c => !isSpace c).dropWhile isQuote)

/-- What stands behind the first blank of a value reads as attributes. -/
def strays (v : List Char) : List (List Char × Option (List Char)) :=
  attributes ((v ++ ['"']).dropWhile fun c => !isSpace c)

def read (a : TagAttr) : List (List Char × Option (List Char)) :=
  match a.value with
  | none => if a.name = [] then [] else [(a.name, none)]
  | some v => (a.name, some (taken v)) :: strays v

end TagAttr

structure TaggedScript where
  attrs : List TagAttr
  body : List Char
  filled : body ≠ []
  unclosed : ¬ closeTag <:+: body

namespace TaggedScript

variable (t : TaggedScript)

def attrText : List Char :=
  t.attrs.flatMap TagAttr.render

def tag : List Char :=
  openTag ++ t.attrText ++ ['>']

def render : List Char :=
  t.tag ++ t.body ++ closeTag

def read : List (List Char × Option (List Char)) :=
  t.attrs.flatMap TagAttr.read

/-- The region behind the tag of a script that stands at an offset, with some attributes. -/
def regionWith (attrs : List (List Char × Option (List Char))) (pos : Nat) : Region :=
  { start := pos + width t.tag
    stop := pos + width t.tag + width t.body
    dialect := Dialect.ofAttr ((attrs.find? (·.1 == "lang".toList)).bind fun (_, value) =>
      value.map String.ofList)
    setup := attrs.any (·.1 == "setup".toList) }

def region (pos : Nat) : Region :=
  t.regionWith (t.attrs.map fun a => (a.name, a.value)) pos

end TaggedScript

/-! ### The words of a tag -/

section Words

variable {word x more : List Char}

/-- A blank ends a word. -/
theorem splitWords_append (hmore : more.head?.all isSpace = true) :
    splitWords word (x ++ more) = splitWords word x ++ splitWords [] more := by
  induction x generalizing word with
  | nil =>
    cases more with
    | nil => simp [splitWords]
    | cons c more =>
      have hc : isSpace c = true := hmore
      cases word <;> simp [splitWords, hc]
  | cons c x ih =>
    cases hc : isSpace c with
    | false => simp [splitWords, hc, ih]
    | true => cases word <;> simp [splitWords, hc, ih]

theorem splitWords_of_unspaced (hx : ∀ c ∈ x, isSpace c = false) (hword : word ++ x ≠ []) :
    splitWords word x = [word.reverse ++ x] := by
  induction x generalizing word with
  | nil =>
    have hne : word.isEmpty = false := by simpa using hword
    simp [splitWords, hne]
  | cons c x ih =>
    have hc := hx c List.mem_cons_self
    rw [splitWords, hc, if_neg Bool.false_ne_true, ih (fun d hd => hx d (List.mem_cons_of_mem _ hd))
      (by simp)]
    simp

theorem attributes_append (hmore : more.head?.all isSpace = true) :
    attributes (x ++ more) = attributes x ++ attributes more := by
  rw [attributes, splitWords_append hmore, List.map_append]
  rfl

theorem attributes_of_unspaced (hx : ∀ c ∈ x, isSpace c = false) (hne : x ≠ []) :
    attributes x = [tagAttr x] := by
  rw [attributes, splitWords_of_unspaced hx (by simpa using hne)]
  rfl

theorem attributes_blank : attributes (' ' :: x) = attributes x := by
  have hblank : isSpace ' ' = true := by decide
  simp [attributes, splitWords, hblank]

theorem dropWhile_head_all {p : Char → Bool} (cs : List Char) :
    (cs.dropWhile fun c => !p c).head?.all p = true := by
  cases h : (cs.dropWhile fun c => !p c).head? with
  | none => rfl
  | some c => simpa [h] using List.head?_dropWhile_not (fun c => !p c) cs

theorem dropEnd_concat {p : Char → Bool} {c : Char} (hc : p c = true) (cs : List Char) :
    dropEnd p (cs ++ [c]) = dropEnd p cs := by
  rw [dropEnd, List.reverse_append, List.reverse_singleton, List.singleton_append,
    List.dropWhile_cons, if_pos hc, dropEnd]

theorem dropEnd_of_last {p : Char → Bool} {cs : List Char} (h : cs.getLast?.any p = false) :
    dropEnd p cs = cs := by
  rw [List.getLast?_eq_head?_reverse] at h
  rw [dropEnd]
  cases hrev : cs.reverse with
  | nil => simpa using hrev.symm
  | cons c rest =>
    have hc : p c = false := by simpa [hrev] using h
    rw [List.dropWhile_cons, hc, if_neg Bool.false_ne_true, ← hrev, List.reverse_reverse]

end Words

namespace TagAttr

variable (a : TagAttr)

theorem mem_name {a : TagAttr} {c : Char} (hc : c ∈ a.name) :
    isSpace c = false ∧ c ≠ '=' ∧ c ≠ '/' ∧ c ≠ '>' := by
  have h := List.all_eq_true.mp a.named c hc
  simp only [isNameChar, Bool.and_eq_true, Bool.not_eq_true', bne_iff_ne] at h
  exact ⟨h.1.1.1.1, h.1.1.2, h.1.2, h.2⟩

theorem tagAttr_name : tagAttr a.name = (a.name, none) := by
  have hsplit : splitAtFirst ['='] a.name = none := by
    rw [splitAtFirst_eq_none_iff (by decide), List.singleton_infix_iff]
    intro hmem
    exact (mem_name hmem).2.1 rfl
  have hend : dropEnd (· == '/') a.name = a.name := by
    apply dropEnd_of_last
    cases hlast : a.name.getLast? with
    | none => rfl
    | some c => simpa using (mem_name (List.mem_of_getLast? hlast)).2.2.1
  rw [tagAttr, hsplit]
  simp only [hend]

theorem tagAttr_value (x : List Char) :
    tagAttr (a.name ++ '=' :: x) =
      (a.name, some (dropEnd isQuote (x.dropWhile isQuote))) := by
  have hsplit : splitAtFirst ['='] (a.name ++ '=' :: x) = some (a.name, x) := by
    rw [splitAtFirst_eq_some_iff (by decide)]
    refine ⟨by simp, nowhere_of_not_mem fun hmem => ?_⟩
    exact (mem_name hmem).2.1 rfl
  rw [tagAttr, hsplit]

/-- A written attribute reads as its value up to the first blank, and as the words behind that. -/
theorem attributes_render : attributes a.render = a.read := by
  have hname : ∀ c ∈ a.name, isSpace c = false := fun c hc => (mem_name hc).1
  rw [render, List.cons_append, attributes_blank, read]
  cases a.value with
  | none =>
    by_cases hnil : a.name = []
    · simp [hnil, attributes, splitWords]
    · simp [hnil, attributes_of_unspaced hname hnil, tagAttr_name]
  | some v =>
    -- the first word ends at the first blank of the value
    have hword : ∀ c ∈ a.name ++ '=' :: '"' :: (v ++ ['"']).takeWhile (fun c => !isSpace c),
        isSpace c = false := by
      intro c hc
      simp only [List.mem_append, List.mem_cons] at hc
      rcases hc with hc | rfl | rfl | hc
      · exact hname c hc
      · decide
      · decide
      · simpa using List.mem_takeWhile_imp hc
    have htext : a.name ++ ('=' :: '"' :: v ++ ['"']) =
        a.name ++ '=' :: '"' :: (v ++ ['"']).takeWhile (fun c => !isSpace c) ++
          (v ++ ['"']).dropWhile fun c => !isSpace c := by
      simp [List.takeWhile_append_dropWhile]
    show attributes (a.name ++ ('=' :: '"' :: v ++ ['"'])) = _
    rw [htext, attributes_append (dropWhile_head_all _),
      attributes_of_unspaced hword (by simp), tagAttr_value]
    rfl

/-- A value without blanks and quotes reads as it is meant. -/
theorem taken_of_plain {v : List Char} (hv : ∀ c ∈ v, isSpace c = false ∧ isQuote c = false) :
    taken v = v ∧ strays v = [] := by
  have hspace : ∀ c ∈ v ++ ['"'], (!isSpace c) = true := by
    intro c hc
    rcases List.mem_append.mp hc with hc | hc
    · simp [(hv c hc).1]
    · obtain rfl := List.mem_singleton.mp hc
      decide
  constructor
  · have hquotes : ('"' :: (v ++ ['"'])).dropWhile isQuote = (v ++ ['"']).dropWhile isQuote := rfl
    rw [taken, List.takeWhile_eq_self_iff.mpr hspace, hquotes]
    cases v with
    | nil => rfl
    | cons c v =>
      have hc := (hv c List.mem_cons_self).2
      rw [List.cons_append, List.dropWhile_cons, hc, if_neg Bool.false_ne_true, ← List.cons_append,
        dropEnd_concat (by decide)]
      apply dropEnd_of_last
      cases hlast : (c :: v).getLast? with
      | none => rfl
      | some d => exact (hv d (List.mem_of_getLast? hlast)).2
  · rw [strays, List.dropWhile_eq_nil_iff.mpr hspace]
    rfl

theorem mem_render {c : Char} :
    c ∈ a.render ↔ c = ' ' ∨ c ∈ a.name ∨ ∃ v ∈ a.value, c = '=' ∨ c = '"' ∨ c ∈ v := by
  rw [render]
  cases a.value with
  | none => simp
  | some v => simp; tauto

/-- Blanks apart, an attribute does not end with a slash. -/
theorem dropEnd_append_render (front : List Char) :
    (dropEnd isSpace (front ++ a.render)).getLast? ≠ some '/' ∨
      dropEnd isSpace (front ++ a.render) = dropEnd isSpace front := by
  by_cases hblank : a.render = [' ']
  · right
    rw [hblank, dropEnd_concat (by decide)]
  · left
    obtain ⟨c, hlast, hspace, hslash⟩ :
        ∃ c, a.render.getLast? = some c ∧ isSpace c = false ∧ c ≠ '/' := by
      rw [render] at hblank ⊢
      cases hvalue : a.value with
      | some v =>
        have hend : ' ' :: a.name ++ ('=' :: '"' :: v ++ ['"']) =
            ' ' :: a.name ++ '=' :: '"' :: v ++ ['"'] := by simp
        exact ⟨'"', hend ▸ List.getLast?_concat, by decide, by decide⟩
      | none =>
        rw [hvalue, List.append_nil] at hblank
        have hname : a.name ≠ [] := fun h => hblank (by rw [h])
        refine ⟨a.name.getLast hname, ?_, ?_⟩
        · rw [List.append_nil, List.getLast?_cons_of_ne_nil hname,
            List.getLast?_eq_getLast_of_ne_nil]
        · have h := mem_name (List.getLast_mem hname)
          exact ⟨h.1, h.2.2.1⟩
    have hwhole : (front ++ a.render).getLast? = some c := by
      rw [List.getLast?_append, hlast]
      rfl
    rw [dropEnd_of_last (by simpa [hwhole] using hspace), hwhole]
    simpa using hslash

end TagAttr

namespace TaggedScript

variable (t : TaggedScript) (front rest : List Char)

theorem attrText_head (attrs : List TagAttr) :
    (attrs.flatMap TagAttr.render).head?.all isSpace = true := by
  cases attrs with
  | nil => rfl
  | cons a attrs => rfl

theorem attributes_attrText : attributes t.attrText = t.read := by
  rw [attrText, read]
  induction t.attrs with
  | nil => rfl
  | cons a attrs ih =>
    rw [List.flatMap_cons, List.flatMap_cons, attributes_append (attrText_head attrs), ih,
      a.attributes_render]

theorem not_selfClosing : (dropEnd isSpace t.attrText).getLast? ≠ some '/' := by
  rw [attrText]
  induction t.attrs using List.reverseRecOn with
  | nil => simp [dropEnd]
  | append_singleton attrs a ih =>
    rw [List.flatMap_append, List.flatMap_singleton]
    rcases a.dropEnd_append_render (attrs.flatMap TagAttr.render) with h | h
    · exact h
    · rw [h]
      exact ih

/-- Only values can hold the angle that ends a tag. -/
theorem angle_mem_attrText : '>' ∈ t.attrText ↔ ∃ a ∈ t.attrs, ∃ v ∈ a.value, '>' ∈ v := by
  rw [attrText, List.mem_flatMap]
  constructor
  · rintro ⟨a, ha, hangle⟩
    rcases a.mem_render.mp hangle with h | h | ⟨v, hv, h | h | h⟩
    · cases h
    · exact absurd rfl (TagAttr.mem_name h).2.2.2
    · cases h
    · cases h
    · exact ⟨a, ha, v, hv, h⟩
  · rintro ⟨a, ha, v, hv, h⟩
    exact ⟨a, ha, a.mem_render.mpr (.inr (.inr ⟨v, hv, .inr (.inr h)⟩))⟩

theorem ofScript_eq (pos : Nat) :
    Region.ofScript (pos + width t.tag) t.attrText t.body = t.regionWith t.read pos := by
  rw [Region.ofScript, attributeValue?, hasAttribute, attributes_attrText]
  rfl

/-- Without angles in its values a script is found in its place. -/
theorem scan_render (pos : Nat) (hangle : '>' ∉ t.attrText) :
    scan pos (t.render ++ rest) =
      t.regionWith t.read pos :: scan (pos + width t.render) rest := by
  have hscan := @scan_script pos rest t.attrText t.body (attrText_head t.attrs) hangle
    t.not_selfClosing t.unclosed
  rw [if_neg t.filled] at hscan
  rw [render, tag, hscan, ← ofScript_eq]
  rfl

def piece (hangle : '>' ∉ t.attrText) : Piece :=
  .script t.attrText t.body (attrText_head t.attrs) hangle t.not_selfClosing t.unclosed

/-- On a page, the region of a script has the names and values that the words of its tag read as. -/
theorem region?_piece (pos : Nat) (hangle : '>' ∉ t.attrText) :
    (t.piece hangle).region? pos = some (t.regionWith t.read pos) := by
  simp only [piece, Piece.region?, if_neg t.filled, ← ofScript_eq]
  rfl

/-- A word reads as an attribute with some name: one that has the name, or a stray. -/
theorem any_read {name : List Char} (hname : name ≠ []) :
    t.read.any (·.1 == name) = true ↔
      (∃ a ∈ t.attrs, a.name = name) ∨
        ∃ a ∈ t.attrs, ∃ v ∈ a.value, ∃ w ∈ TagAttr.strays v, w.1 = name := by
  have hread (a : TagAttr) : (∃ w ∈ a.read, w.1 = name) ↔
      a.name = name ∨ ∃ v ∈ a.value, ∃ w ∈ TagAttr.strays v, w.1 = name := by
    rw [TagAttr.read]
    cases a.value with
    | some v => simp
    | none =>
      by_cases hnil : a.name = []
      · simp [hnil, hname.symm]
      · simp [hnil]
  simp only [List.any_eq_true, beq_iff_eq, read, List.mem_flatMap]
  constructor
  · rintro ⟨w, ⟨a, ha, hw⟩, rfl⟩
    rcases (hread a).mp ⟨w, hw, rfl⟩ with h | h
    · exact .inl ⟨a, ha, h⟩
    · exact .inr ⟨a, ha, h⟩
  · rintro (⟨a, ha, h⟩ | ⟨a, ha, h⟩)
    · obtain ⟨w, hw, rfl⟩ := (hread a).mpr (.inl h)
      exact ⟨w, ⟨a, ha, hw⟩, rfl⟩
    · obtain ⟨w, hw, rfl⟩ := (hread a).mpr (.inr h)
      exact ⟨w, ⟨a, ha, hw⟩, rfl⟩

/-- The tag is read as meant if no stray word alone asks for `setup`, and the dialect is the same. -/
theorem regionWith_read_eq_iff (pos : Nat) :
    t.regionWith t.read pos = t.region pos ↔
      ((∃ a ∈ t.attrs, ∃ v ∈ a.value, ∃ w ∈ TagAttr.strays v, w.1 = "setup".toList) →
        ∃ a ∈ t.attrs, a.name = "setup".toList) ∧
      (t.regionWith t.read pos).dialect = (t.region pos).dialect := by
  have hsetup : (t.regionWith t.read pos).setup = (t.region pos).setup ↔
      ((∃ a ∈ t.attrs, ∃ v ∈ a.value, ∃ w ∈ TagAttr.strays v, w.1 = "setup".toList) →
        ∃ a ∈ t.attrs, a.name = "setup".toList) := by
    have hmeant : (t.region pos).setup = true ↔ ∃ a ∈ t.attrs, a.name = "setup".toList := by
      simp only [region, regionWith, List.any_map, List.any_eq_true, Function.comp_apply,
        beq_iff_eq]
    rw [Bool.eq_iff_iff, hmeant, regionWith, any_read t (by decide)]
    constructor
    · intro h hstray
      exact h.mp (.inr hstray)
    · intro h
      exact ⟨fun hor => hor.elim id h, .inl⟩
  constructor
  · intro h
    exact ⟨hsetup.mp (congrArg Region.setup h), congrArg Region.dialect h⟩
  · rintro ⟨hstrays, hdialect⟩
    calc t.regionWith t.read pos
      _ = { t.region pos with
            dialect := (t.regionWith t.read pos).dialect
            setup := (t.regionWith t.read pos).setup } := rfl
      _ = t.region pos := by rw [hdialect, hsetup.mpr hstrays]

def isLang (w : List Char × Option (List Char)) : Bool :=
  w.1 == "lang".toList

/-- Where no word reads as `lang`, none is meant as one. -/
theorem find?_isLang_map {attrs : List TagAttr} (h : ∀ b ∈ attrs, b.read.find? isLang = none) :
    (attrs.flatMap TagAttr.read).find? isLang = none ∧
      (attrs.map fun b => (b.name, b.value)).find? isLang = none := by
  constructor
  · rw [List.find?_flatMap, List.findSome?_eq_none_iff]
    exact h
  · rw [List.find?_eq_none]
    intro w hw hlang
    obtain ⟨b, hb, rfl⟩ := List.mem_map.mp hw
    have hname : b.name = "lang".toList := by simpa [isLang] using hlang
    have hread := h b hb
    rw [TagAttr.read] at hread
    cases hvalue : b.value <;> simp [hvalue, hname, isLang] at hread

theorem dialect_regionWith (attrs : List (List Char × Option (List Char))) (pos : Nat) :
    (t.regionWith attrs pos).dialect =
      Dialect.ofAttr ((attrs.find? isLang).bind fun w => w.2.map String.ofList) :=
  rfl

/-- Behind attributes that do not read as `lang`, the next one decides. -/
theorem find?_isLang_split {before after : List TagAttr} {a : TagAttr}
    (hattrs : t.attrs = before ++ a :: after) (hbefore : ∀ b ∈ before, b.read.find? isLang = none) :
    t.read.find? isLang = (a.read.find? isLang).or ((after.flatMap TagAttr.read).find? isLang) ∧
      (t.attrs.map fun b => (b.name, b.value)).find? isLang =
        ((a :: after).map fun b => (b.name, b.value)).find? isLang := by
  obtain ⟨hread, hmeant⟩ := find?_isLang_map hbefore
  rw [read, hattrs, List.flatMap_append, List.find?_append, hread, List.flatMap_cons,
    List.find?_append, List.map_append, List.find?_append, hmeant]
  exact ⟨rfl, rfl⟩

/-- The dialect is misread where the value of the first `lang` names another dialect once the quotes
around it and all behind its first blank are gone, and where a word behind a blank of an earlier value
reads as `lang` and names another dialect. -/
theorem dialect_read_eq_iff (pos : Nat) :
    (t.regionWith t.read pos).dialect = (t.region pos).dialect ↔
      ∀ before a after, t.attrs = before ++ a :: after →
        (∀ b ∈ before, b.read.find? isLang = none) → ∀ v ∈ a.value,
        (a.name = "lang".toList → Dialect.ofAttr (some (String.ofList (TagAttr.taken v))) =
          Dialect.ofAttr (some (String.ofList v))) ∧
        (a.name ≠ "lang".toList → ∀ w, (TagAttr.strays v).find? isLang = some w →
          Dialect.ofAttr (w.2.map String.ofList) = (t.region pos).dialect) := by
  have hname {name : List Char} {value : Option (List Char)} :
      isLang (name, value) = true ↔ name = "lang".toList := beq_iff_eq
  constructor
  · intro h before a after hattrs hbefore v hv
    obtain ⟨hread, hmeant⟩ := t.find?_isLang_split hattrs hbefore
    rw [dialect_regionWith, hread, TagAttr.read, show a.value = some v from hv] at h
    refine ⟨fun hlang => ?_, fun hlang w hw => ?_⟩
    · rw [region, dialect_regionWith, hmeant, List.map_cons, List.find?_cons_of_pos (hname.mpr hlang),
        List.find?_cons_of_pos (hname.mpr hlang), show a.value = some v from hv] at h
      exact h
    · rw [List.find?_cons_of_neg (hname.not.mpr hlang), hw] at h
      exact h
  · intro h
    cases hfirst : t.attrs.find? fun a => (a.read.find? isLang).isSome with
    | none =>
      obtain ⟨hread, hmeant⟩ := @find?_isLang_map t.attrs fun b hb => by
        simpa using List.find?_eq_none.mp hfirst b hb
      rw [region, dialect_regionWith, dialect_regionWith, read, hread, hmeant]
    | some a =>
      obtain ⟨hsome, before, after, hattrs, hbefore⟩ := List.find?_eq_some_iff_append.mp hfirst
      have hbefore : ∀ b ∈ before, b.read.find? isLang = none := by simpa using hbefore
      obtain ⟨hread, hmeant⟩ := t.find?_isLang_split hattrs hbefore
      have hvalue := h before a after hattrs hbefore
      rw [TagAttr.read] at hsome
      rw [dialect_regionWith, hread, TagAttr.read]
      by_cases hlang : a.name = "lang".toList
      · -- the attribute is one itself: its value may lose something
        cases hv : a.value with
        | none =>
          rw [region, dialect_regionWith, hmeant, List.map_cons,
            List.find?_cons_of_pos (hname.mpr hlang), hv]
          simp [hlang, isLang]
        | some v =>
          rw [List.find?_cons_of_pos (hname.mpr hlang)]
          refine ((hvalue v hv).1 hlang).trans ?_
          rw [region, dialect_regionWith, hmeant, List.map_cons,
            List.find?_cons_of_pos (hname.mpr hlang), hv]
          rfl
      · cases hv : a.value with
        | none =>
          have hnot : isLang (a.name, none) = false := Bool.eq_false_iff.mpr (hname.not.mpr hlang)
          by_cases hnil : a.name = [] <;> simp [hv, hnil, hnot] at hsome
        | some v =>
          rw [hv] at hsome
          rw [List.find?_cons_of_neg (hname.not.mpr hlang)] at hsome ⊢
          obtain ⟨w, hw⟩ := Option.isSome_iff_exists.mp hsome
          rw [hw]
          exact (hvalue v hv).2 hlang w hw

/-- Of attributes whose values hold neither blanks nor quotes, the same one is found. What reads as
nothing has neither a name nor a value, and is not looked for. -/
theorem find?_read_of_plain (attrs : List TagAttr)
    (hplain : ∀ a ∈ attrs, ∀ v ∈ a.value, ∀ c ∈ v, isSpace c = false ∧ isQuote c = false)
    {p : List Char × Option (List Char) → Bool} (hp : p ([], none) = false) :
    (attrs.flatMap TagAttr.read).find? p =
      (attrs.map fun a => (a.name, a.value)).find? p := by
  induction attrs with
  | nil => rfl
  | cons a attrs ih =>
    have hrest := ih fun b hb => hplain b (List.mem_cons_of_mem _ hb)
    have hread : a.read.find? p = [(a.name, a.value)].find? p := by
      rw [TagAttr.read]
      cases hvalue : a.value with
      | none => by_cases hname : a.name = [] <;> simp [hname, hp]
      | some v =>
        obtain ⟨htaken, hstrays⟩ := TagAttr.taken_of_plain (hplain a List.mem_cons_self v hvalue)
        simp [htaken, hstrays]
    rw [List.flatMap_cons, List.find?_append, hread, hrest, ← List.find?_append, List.map_cons]
    rfl

theorem regionWith_read_of_plain (pos : Nat)
    (hplain : ∀ a ∈ t.attrs, ∀ v ∈ a.value, ∀ c ∈ v, isSpace c = false ∧ isQuote c = false) :
    t.regionWith t.read pos = t.region pos := by
  rw [regionWith, region, regionWith, read, find?_read_of_plain t.attrs hplain (by decide),
    ← List.isSome_find?, find?_read_of_plain t.attrs hplain (by decide), List.isSome_find?]

end TaggedScript

/-! ### Angles in values -/

/-- Right in front of each region that is found stands a script tag without other angles. -/
theorem scan_opened {source : List Char} (front text : List Char) (hsource : source = front ++ text)
    {r : Region} (hr : r ∈ scan (width front) text) :
    ∃ before attrs behind, source = before ++ openTag ++ attrs ++ ['>'] ++ behind ∧ '>' ∉ attrs ∧
      r.start = width (before ++ openTag ++ attrs ++ ['>']) := by
  induction hlength : text.length using Nat.strong_induction_on generalizing front text with
  | _ n ih =>
    rcases scan_step front text with
      hnil | ⟨passed, rest, rfl, hpassed, hscan⟩ |
      ⟨attrs, body, behind, rfl, hangle, -, -, hscan⟩
    · rw [hnil] at hr
      cases hr
    · have hshorter := List.length_pos_of_ne_nil hpassed
      rw [List.length_append] at hlength
      rw [hscan] at hr
      exact ih rest.length (by omega) (front ++ passed) rest (by simp [hsource]) hr rfl
    · rw [hscan] at hr
      rcases List.mem_cons.mp hr with rfl | hr
      · exact ⟨front, attrs, body ++ closeTag ++ behind, by simp [hsource], hangle,
          (width_tag front attrs).symm⟩
      · have hopenLength : openTag.length = 7 := rfl
        simp only [List.length_append] at hlength
        rw [← width_block] at hr
        exact ih behind.length (by omega) _ behind (by simp [hsource]) hr rfl

/-- The end of a text in which a character does not occur stands behind that character. -/
theorem suffix_of_not_mem {c : Char} {x y u v : List Char} (h : u ++ v = x ++ c :: y)
    (hv : c ∉ v) : v <:+ y := by
  rcases List.append_eq_append_iff.mp h with ⟨e, hx, hcut⟩ | ⟨e, hu, hcut⟩
  · exact absurd (hcut ▸ List.mem_append_right e List.mem_cons_self) hv
  · cases e with
    | nil =>
      rw [List.nil_append] at hcut
      exact absurd (hcut ▸ List.mem_cons_self) hv
    | cons d e =>
      obtain ⟨-, rfl⟩ := List.cons.inj hcut
      exact List.suffix_append e v

/-- An angle inside of a value ends the tag too early. -/
theorem TaggedScript.start_ne_of_angle (t : TaggedScript) (front rest : List Char)
    (hangle : '>' ∈ t.attrText) (htag : ¬ openTag <:+: t.attrText) {r : Region}
    (hr : r ∈ scriptRegions (front ++ t.render ++ rest)) :
    r.start ≠ width front + width t.tag := by
  intro hstart
  obtain ⟨before, attrs, behind, hsource, hattrs, hbefore⟩ :=
    scan_opened [] (front ++ t.render ++ rest) rfl hr
  obtain ⟨x, y, hxy⟩ := List.append_of_mem hangle
  -- the tag in front of the region would be the end of this one
  have hsplit : before ++ openTag ++ attrs ++ ['>'] ++ behind =
      front ++ t.tag ++ (t.body ++ closeTag ++ rest) := by
    rw [← hsource, render]
    simp only [List.nil_append, List.append_assoc]
  have htags := (append_inj_of_width hsplit (by rw [← hbefore, hstart, width_append])).1
  rw [tag, ← List.append_assoc, ← List.append_assoc] at htags
  have hends := List.append_cancel_right htags
  have hopen : '>' ∉ openTag ++ attrs := by
    rw [List.mem_append, not_or]
    exact ⟨by decide, hattrs⟩
  rw [hxy, List.append_assoc, ← List.append_assoc _ x] at hends
  have hsuffix := suffix_of_not_mem hends hopen
  apply htag
  rw [hxy]
  calc openTag <:+: openTag ++ attrs := (List.prefix_append _ _).isInfix
    _ <:+: y := hsuffix.isInfix
    _ <:+: x ++ '>' :: y := ⟨x ++ ['>'], [], by simp⟩

/-- Wherever a script stands in a document: if no value holds an angle, the script is found, its
region starts right behind its tag, and the region has the attributes that the words of the tag read
as. They are those of the tag in what counts if no word behind a blank of a value reads as `setup`,
but for a tag that is one, and the first that reads as `lang` names the dialect that is meant; so
they are if the values hold neither blanks nor quotes. If a value holds an angle, and none a script
tag, no region that is found starts behind the tag. The dialect is misread where the first value of a
`lang` names another dialect once the quotes around it and all behind its first blank are gone, and
where a word behind a blank of an earlier value reads as `lang` and names another dialect. -/
theorem scriptRegions_quoted_values (t : TaggedScript) (front rest : List Char)
    (noTag : ¬ openTag <:+: front) (noComment : ¬ commentStart <:+: front) :
    ((∀ a ∈ t.attrs, ∀ v ∈ a.value, '>' ∉ v) →
      scriptRegions (front ++ t.render ++ rest) =
        t.regionWith t.read (width front) :: scan (width front + width t.render) rest) ∧
    (t.regionWith t.read (width front) = t.region (width front) ↔
      ((∃ a ∈ t.attrs, ∃ v ∈ a.value, ∃ w ∈ TagAttr.strays v, w.1 = "setup".toList) →
        ∃ a ∈ t.attrs, a.name = "setup".toList) ∧
      (t.regionWith t.read (width front)).dialect = (t.region (width front)).dialect) ∧
    ((∀ a ∈ t.attrs, ∀ v ∈ a.value, ∀ c ∈ v, isSpace c = false ∧ isQuote c = false) →
      t.regionWith t.read (width front) = t.region (width front)) ∧
    ((∃ a ∈ t.attrs, ∃ v ∈ a.value, '>' ∈ v) → ¬ openTag <:+: t.attrText →
      ∀ r ∈ scriptRegions (front ++ t.render ++ rest),
        r.start ≠ (t.region (width front)).start) ∧
    ((t.regionWith t.read (width front)).dialect = (t.region (width front)).dialect ↔
      ∀ before a after, t.attrs = before ++ a :: after →
        (∀ b ∈ before, b.read.find? TaggedScript.isLang = none) → ∀ v ∈ a.value,
        (a.name = "lang".toList → Dialect.ofAttr (some (String.ofList (TagAttr.taken v))) =
          Dialect.ofAttr (some (String.ofList v))) ∧
        (a.name ≠ "lang".toList → ∀ w, (TagAttr.strays v).find? TaggedScript.isLang = some w →
          Dialect.ofAttr (w.2.map String.ofList) = (t.region (width front)).dialect)) := by
  refine ⟨fun hangle => ?_, t.regionWith_read_eq_iff _, t.regionWith_read_of_plain _,
    fun hangle htag r hr => ?_, t.dialect_read_eq_iff _⟩
  · have hinTag : '>' ∉ t.attrText := by
      rw [t.angle_mem_attrText]
      rintro ⟨a, ha, v, hv, h⟩
      exact hangle a ha v hv h
    have hhead : (t.render ++ rest).head? = some '<' := rfl
    rw [scriptRegions_eq_scan, List.append_assoc, scan_text noTag noComment (.inr hhead),
      Nat.zero_add, t.scan_render rest _ hinTag]
  · exact t.start_ne_of_angle front rest (t.angle_mem_attrText.mpr hangle) htag hr

def genericScript : TaggedScript where
  attrs :=
    [⟨"setup".toList, none, by decide, by decide⟩,
      ⟨"generic".toList, some "T extends Map<A, B>".toList, by decide, by decide⟩,
      ⟨"lang".toList, some "ts".toList, by decide, by decide⟩]
  body := "x".toList
  filled := by decide
  unclosed := by decide

def titledScript : TaggedScript where
  attrs := [⟨"title".toList, some "a setup b".toList, by decide, by decide⟩]
  body := "x".toList
  filled := by decide
  unclosed := by decide

/-- A type parameter that cuts the tag short, and a title that asks for `setup`. -/
theorem scriptRegions_quoted_values_misread :
    genericScript.render =
      "<script setup generic=\"T extends Map<A, B>\" lang=\"ts\">x</script>".toList ∧
    genericScript.region 0 = ⟨54, 55, .ts, true⟩ ∧
    (∀ r ∈ scriptRegions genericScript.render, r.start ≠ 54) ∧
    titledScript.render = "<script title=\"a setup b\">x</script>".toList ∧
    titledScript.region 0 = ⟨26, 27, .js, false⟩ ∧
    scriptRegions titledScript.render = [⟨26, 27, .js, true⟩] := by
  have hnoTag : ¬ openTag <:+: [] := by decide
  have hnoComment : ¬ commentStart <:+: [] := by decide
  have hgeneric := scriptRegions_quoted_values genericScript [] [] hnoTag hnoComment
  have htitled := scriptRegions_quoted_values titledScript [] [] hnoTag hnoComment
  rw [List.nil_append, List.append_nil] at hgeneric htitled
  refine ⟨by decide, by decide +kernel, ?_, by decide, by decide +kernel, ?_⟩
  · exact hgeneric.2.2.2.1 ⟨_, .tail _ (.head _), _, rfl, by decide⟩ (by decide +kernel)
  · rw [htitled.1 (by decide +kernel)]
    decide +kernel

end RefSugar.Document

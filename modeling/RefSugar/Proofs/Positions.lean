import RefSugar.Proofs.Splicing

/-! Where the characters of a result stand. A mapping is made for the start of each copied stretch and
for each line that starts inside one. Main statement: every mapping tells the place of the character
it was made for, mappings increase, and the place of every copied character can be read off the last
mapping in front of it. -/
namespace RefSugar

variable {m : Mapping} {offset : Nat} {X Y : List (Char × Option Nat)}

def Text.unitsOf (text : List Char) : Nat :=
  (text.map units).sum

def Mapping.place (m : Mapping) : Splice.Place :=
  { line := m.line, column := m.column }

namespace Splice

def lastLine (text : List Char) : List Char :=
  (text.reverse.takeWhile (· != '\n')).reverse

/-- The place behind a text: its line feeds, and the units behind the last one. -/
def placeBehind (text : List Char) : Place :=
  { line := text.count '\n', column := Text.unitsOf (lastLine text) }

def Place.Before (p q : Place) : Prop :=
  p.line < q.line ∨ p.line = q.line ∧ p.column < q.column

instance (p q : Place) : Decidable (p.Before q) :=
  inferInstanceAs (Decidable (_ ∨ _))

def lastUpTo? (mappings : List Mapping) (place : Place) : Option Mapping :=
  (mappings.filter fun m => !decide (place.Before m.place)).getLast?

/-- The part of the result in front of the character that is kept at an offset. -/
def inFront (source : List Char) (edits : List Edit) (p : Nat) : List Char :=
  ((List.range p).flatMap fun q => addedAt edits q ++ keptAt source edits q) ++ addedAt edits p

/-- The character at an offset of the source is neither removed nor overwritten, and it stands in
the code at the place. -/
structure CopiedTo (source : List Char) (edits : List Edit) (code : List Char) (p : Nat)
    (place : Place) : Prop where
  kept : isCovered edits p = false
  copied : ∃ c behind, Text.charAt? p source = some c ∧
    code = inFront source edits p ++ c :: behind
  placed : place = placeBehind (inFront source edits p)

section Places

variable {p q : Place} {c : Char} {text : List Char}

theorem Place.after_append (p : Place) (a b : List Char) :
    p.after (a ++ b) = (p.after a).after b :=
  List.foldl_append

/-- Counting along a text comes to the place behind it. -/
theorem after_eq_placeBehind (text : List Char) : Place.after {} text = placeBehind text := by
  induction text using List.reverseRecOn with
  | nil => rfl
  | append_singleton text c ih =>
    rw [Place.after_append, ih]
    by_cases hc : c = '\n'
    · subst hc
      simp [Place.after, Place.next, placeBehind, lastLine, Text.unitsOf]
    · simp [Place.after, Place.next, placeBehind, lastLine, Text.unitsOf, hc]

theorem units_pos (c : Char) : 0 < Text.units c := by
  unfold Text.units
  split <;> omega

theorem Place.before_next (p : Place) (c : Char) : p.Before (p.next c) := by
  have hc := units_pos c
  unfold Place.next Place.Before
  split
  · exact .inl (Nat.lt_succ_self _)
  · exact .inr ⟨rfl, by simp only; omega⟩

theorem Place.Before.trans {r : Place} (hp : p.Before q) (hq : q.Before r) : p.Before r := by
  unfold Place.Before at *
  omega

/-- Within a line the column grows by the units of the text. -/
theorem Place.after_line (p : Place) (h : '\n' ∉ text) :
    p.after text = { line := p.line, column := p.column + Text.unitsOf text } := by
  induction text generalizing p with
  | nil => rfl
  | cons c text ih =>
    simp only [List.mem_cons, not_or] at h
    have hc : (c == '\n') = false := beq_eq_false_iff_ne.mpr (Ne.symm h.1)
    change (p.next c).after text = _
    rw [ih _ h.2]
    simp [Place.next, hc, Text.unitsOf, Nat.add_assoc]

end Places

/-- The mappings that all copied characters would have. -/
def fullMappings : Place → List (Char × Option Nat) → List Mapping
  | _, [] => []
  | p, (c, some offset) :: rest => ⟨p.line, p.column, offset⟩ :: fullMappings (p.next c) rest
  | p, (c, none) :: rest => fullMappings (p.next c) rest

section Full

variable {p : Place} {L : List (Char × Option Nat)}

theorem fullMappings_append (p : Place) (X Y : List (Char × Option Nat)) :
    fullMappings p (X ++ Y) = fullMappings p X ++ fullMappings (p.after (X.map Prod.fst)) Y := by
  induction X generalizing p with
  | nil => rfl
  | cons x X ih =>
    obtain ⟨c, origin⟩ := x
    cases origin <;> simp [fullMappings, ih, Place.after]

/-- A mapping tells the place behind all that stands before its character. -/
theorem mem_fullMappings (h : m ∈ fullMappings p L) :
    ∃ X c Y, L = X ++ (c, some m.offset) :: Y ∧ m.place = p.after (X.map Prod.fst) := by
  induction L generalizing p with
  | nil => cases h
  | cons x L ih =>
    obtain ⟨c, origin⟩ := x
    have hrest (h : m ∈ fullMappings (p.next c) L) : ∃ X d Y,
        (c, origin) :: L = X ++ (d, some m.offset) :: Y ∧ m.place = p.after (X.map Prod.fst) := by
      obtain ⟨X, d, Y, rfl, hplace⟩ := ih h
      exact ⟨(c, origin) :: X, d, Y, rfl, hplace⟩
    cases origin with
    | none => exact hrest h
    | some offset =>
      rcases List.mem_cons.mp h with rfl | h
      · exact ⟨[], c, L, rfl, rfl⟩
      · exact hrest h

/-- Copied characters do not stand in front of where the counting starts. -/
theorem fullMappings_behind {q : Place} (hq : q.Before p)
    (h : m ∈ fullMappings p L) : q.Before m.place := by
  induction L generalizing p with
  | nil => cases h
  | cons x L ih =>
    obtain ⟨c, origin⟩ := x
    have hnext := hq.trans (p.before_next c)
    cases origin with
    | none => exact ih hnext h
    | some offset =>
      rcases List.mem_cons.mp h with rfl | h
      · exact hq
      · exact ih hnext h

theorem fullMappings_places (p : Place) (L : List (Char × Option Nat)) :
    (fullMappings p L).Pairwise fun a b => a.place.Before b.place := by
  induction L generalizing p with
  | nil => exact .nil
  | cons x L ih =>
    obtain ⟨c, origin⟩ := x
    cases origin with
    | none => exact ih _
    | some offset =>
      exact List.pairwise_cons.mpr ⟨fun m hm => fullMappings_behind (p.before_next c) hm, ih _⟩

theorem fullMappings_offsets (p : Place) (L : List (Char × Option Nat)) :
    (fullMappings p L).map Mapping.offset = L.filterMap Prod.snd := by
  induction L generalizing p with
  | nil => rfl
  | cons x L ih =>
    obtain ⟨c, origin⟩ := x
    cases origin <;> simp [fullMappings, ih]

end Full

section Marks

/-- The mappings inside a copied stretch belong to characters behind its first one. -/
theorem lineMappings_sublist (p : Place) (offset : Nat) (c : Char) (cs : List Char) :
    (lineMappings p offset (c :: cs)).Sublist
      (fullMappings (p.next c) (Text.located (offset + c.utf8Size) cs)) := by
  induction cs generalizing p offset c with
  | nil => simp [lineMappings]
  | cons d ds ih =>
    have hrest := ih (p.next c) (offset + c.utf8Size) d
    rw [lineMappings, Text.located, fullMappings]
    split
    · rename_i hmark
      obtain rfl : c = '\n' := by simpa using hmark
      exact hrest.cons_cons _
    · exact hrest.cons _

/-- Only some copied characters get a mapping, in order. -/
theorem mappings_sublist (p : Place) (parts : List Stretch)
    (hfilled : ∀ offset, .copied offset [] ∉ parts) :
    (mappings p parts).Sublist (fullMappings p (parts.flatMap Stretch.origins)) := by
  induction parts generalizing p with
  | nil => exact .slnil
  | cons part parts ih =>
    have hrest := fun p => ih p fun offset h => hfilled offset (List.mem_cons_of_mem _ h)
    rw [List.flatMap_cons, fullMappings_append, Stretch.origins_fst]
    cases part with
    | added text =>
      exact (hrest _).trans (List.sublist_append_right _ _)
    | copied offset text =>
      cases text with
      | nil => exact absurd List.mem_cons_self (hfilled offset)
      | cons c cs =>
        exact List.Sublist.append ((lineMappings_sublist p offset c cs).cons_cons _) (hrest _)

/-- Among the mappings, counted from `p`, one has been made for a character in front of the one that
stands between `X` and `Y`, or for that one itself. Only a line feed ends what it speaks for, and the
mappings behind it have been made for characters of `Y`. -/
def Reaches (p : Place) (marks : List Mapping) (X : List (Char × Option Nat)) (c : Char)
    (offset : Nat) (Y : List (Char × Option Nat)) : Prop :=
  ∃ earlier m later init stretch, marks = earlier ++ m :: later ∧
    X = init ++ Text.located m.offset stretch ∧ offset = m.offset + Text.width stretch ∧
    m.place = p.after (init.map Prod.fst) ∧ '\n' ∉ stretch ∧
    later.Sublist (fullMappings ((p.after (X.map Prod.fst)).next c) Y)

/-- A stretch that starts and ends where a text does is all of it. -/
theorem located_whole {start : Nat} {text stretch : List Char}
    {init : List (Char × Option Nat)}
    (h : Text.located offset text = init ++ Text.located start stretch)
    (hwidth : Text.width text = Text.width stretch) : init = [] := by
  have htext := congrArg (List.map Prod.fst) h
  simp only [Text.located_fst, List.map_append] at htext
  have hzero : Text.width (init.map Prod.fst) = 0 := by
    rw [htext, Text.width_append] at hwidth
    omega
  exact List.map_eq_nil_iff.mp ((Text.width_eq_zero_iff _).mp hzero)

/-- Inside a copied stretch, the mapping of its start or that of a line speaks for each character. -/
theorem lineMappings_reach (p : Place) (offset : Nat) (front : List Char) (c : Char)
    (back : List Char) :
    Reaches p (⟨p.line, p.column, offset⟩ :: lineMappings p offset (front ++ c :: back))
      (Text.located offset front) c (offset + Text.width front)
      (Text.located (offset + Text.width front + c.utf8Size) back) := by
  -- on what stands in front of `c`: the mapping that speaks for `c` behind the first character does
  -- so behind all of `front`, unless it is the one that the induction makes for the start
  induction front generalizing p offset with
  | nil =>
    exact ⟨[], _, _, [], [], rfl, rfl, rfl, rfl, by simp, lineMappings_sublist p offset c back⟩
  | cons d front ih =>
    have hwidth : offset + Text.width (d :: front) = offset + d.utf8Size + Text.width front := by
      rw [Text.width_cons, Nat.add_assoc]
    obtain ⟨earlier, m, later, init, stretch, hmarks, hX, hoffset, hplace, hline, hlater⟩ :=
      ih (p.next d) (offset + d.utf8Size)
    rw [hwidth]
    by_cases hd : d = '\n'
    · -- a line starts behind `d`, and has a mapping of its own
      subst hd
      refine ⟨⟨p.line, p.column, offset⟩ :: earlier, m, later, ('\n', some offset) :: init, stretch,
        ?_, ?_, hoffset, hplace, hline, hlater⟩
      · rw [List.cons_append, List.cons_append, ← hmarks, lineMappings, if_pos (by simp)]
        rfl
      · rw [Text.located, hX]
        rfl
    · have hnext : lineMappings p offset (d :: (front ++ c :: back)) =
          lineMappings (p.next d) (offset + d.utf8Size) (front ++ c :: back) := by
        simp [lineMappings, hd]
      rw [List.cons_append, hnext]
      cases earlier with
      | nil =>
        -- no line starts up to `c`, so that the first mapping speaks for `d` too
        obtain ⟨rfl, rfl⟩ := List.cons.inj hmarks
        obtain rfl : init = [] := located_whole hX (by simpa using hoffset)
        refine ⟨[], ⟨p.line, p.column, offset⟩, _, [], d :: stretch, rfl, ?_, ?_, rfl, ?_, hlater⟩
        · rw [Text.located, Text.located, hX]
          rfl
        · rw [hoffset, Text.width_cons]
          simp only
          omega
        · simp [Ne.symm hd, hline]
      | cons first earlier =>
        obtain ⟨rfl, hrest⟩ := List.cons.inj hmarks
        refine ⟨⟨p.line, p.column, offset⟩ :: earlier, m, later, (d, some offset) :: init, stretch,
          ?_, ?_, hoffset, hplace, hline, hlater⟩
        · rw [hrest]
          rfl
        · rw [Text.located, hX]
          rfl

/-- A located text splits where a located character stands. -/
theorem located_split {text : List Char} {c : Char}
    {origin : Option Nat} (h : Text.located offset text = X ++ (c, origin) :: Y) :
    ∃ front back, text = front ++ c :: back ∧ X = Text.located offset front ∧
      origin = some (offset + Text.width front) ∧
      Y = Text.located (offset + Text.width front + c.utf8Size) back := by
  induction X generalizing offset text with
  | nil =>
    cases text with
    | nil => cases h
    | cons d text =>
      obtain ⟨hhead, rfl⟩ := List.cons.inj h
      obtain ⟨rfl, rfl⟩ := Prod.mk.inj hhead
      exact ⟨[], text, rfl, rfl, rfl, rfl⟩
  | cons x X ih =>
    cases text with
    | nil => cases h
    | cons d text =>
      obtain ⟨rfl, hrest⟩ := List.cons.inj h
      obtain ⟨front, back, rfl, rfl, rfl, rfl⟩ := ih hrest
      have hwidth : offset + Text.width (d :: front) = offset + d.utf8Size + Text.width front := by
        rw [Text.width_cons, Nat.add_assoc]
      exact ⟨d :: front, back, rfl, rfl, by rw [hwidth], by rw [hwidth]⟩

theorem Reaches.append {p : Place} {marks rest : List Mapping} {X Y Z : List (Char × Option Nat)}
    {c : Char} {offset : Nat} (h : Reaches p marks X c offset Y)
    (hrest : rest.Sublist
      (fullMappings (p.after ((X ++ (c, some offset) :: Y).map Prod.fst)) Z)) :
    Reaches p (marks ++ rest) X c offset (Y ++ Z) := by
  obtain ⟨earlier, m, later, init, stretch, rfl, hX, hoffset, hplace, hline, hlater⟩ := h
  refine ⟨earlier, m, later ++ rest, init, stretch, by simp, hX, hoffset, hplace, hline, ?_⟩
  rw [fullMappings_append]
  simp only [List.map_append, List.map_cons, Place.after_append] at hrest
  exact hlater.append hrest

/-- Among the mappings of stretches one speaks for each copied character. -/
theorem mappings_reach (p : Place) {parts : List Stretch}
    (hfilled : ∀ offset, .copied offset [] ∉ parts) {c : Char}
    (h : parts.flatMap Stretch.origins = X ++ (c, some offset) :: Y) :
    Reaches p (mappings p parts) X c offset Y := by
  induction parts generalizing p X with
  | nil => simp at h
  | cons part parts ih =>
    have hnone : ∀ offset, .copied offset [] ∉ parts := fun offset h =>
      hfilled offset (List.mem_cons_of_mem _ h)
    -- behind the first stretch, the mappings of the others reach the character
    have hbehind (front : List Mapping) (X' : List (Char × Option Nat))
        (hX : X = Stretch.origins part ++ X')
        (hrest : parts.flatMap Stretch.origins = X' ++ (c, some offset) :: Y) :
        Reaches p (front ++ mappings (p.after (Stretch.text part)) parts) X c offset Y := by
      obtain ⟨earlier, m, later, init, stretch, hmarks, rfl, hoffset, hplace, hline, hlater⟩ :=
        ih (p.after (Stretch.text part)) hnone hrest
      refine ⟨front ++ earlier, m, later, Stretch.origins part ++ init, stretch, ?_, ?_, hoffset, ?_,
        hline, ?_⟩
      · rw [hmarks, List.append_assoc]
      · rw [hX, List.append_assoc]
      · rw [hplace, List.map_append, Stretch.origins_fst, Place.after_append]
      · rw [hX, List.map_append, Stretch.origins_fst, Place.after_append]
        exact hlater
    rw [List.flatMap_cons] at h
    rcases List.append_eq_append_iff.mp h with ⟨X', hX, hrest⟩ | ⟨Y', hpart, hY⟩
    · cases part with
      | added text => exact hbehind [] X' hX hrest
      | copied start text => exact hbehind _ X' hX hrest
    · cases Y' with
      | nil =>
        -- the character is the first one behind this stretch
        rw [List.append_nil] at hpart
        rw [List.nil_append] at hY
        cases part with
        | added text => exact hbehind [] [] (by rw [hpart, List.append_nil]) hY.symm
        | copied start text => exact hbehind _ [] (by rw [hpart, List.append_nil]) hY.symm
      | cons y Y' =>
        obtain ⟨rfl, rfl⟩ := List.cons.inj hY
        cases part with
        | added text =>
          have hmem : (c, some offset) ∈ Stretch.origins (.added text) := by simp [hpart]
          simp [Stretch.origins] at hmem
        | copied start text =>
          -- the character stands in this stretch, and later stretches only add mappings behind it
          obtain ⟨front, back, rfl, rfl, horigin, rfl⟩ := located_split hpart
          obtain rfl := Option.some.inj horigin
          refine (lineMappings_reach p start front c back).append ?_
          rw [← hpart, Stretch.origins_fst]
          exact mappings_sublist _ parts hnone

end Marks

section Copies

variable {source : List Char} {edits : List Edit}

/-- No empty stretch is copied. -/
theorem copy_filled {lo hi : Nat} (hlo : Text.isBoundary lo source = true)
    (hhi : Text.isBoundary hi source = true) (offset : Nat) :
    .copied offset [] ∉ copy source lo hi := by
  unfold copy
  split
  · rename_i hlt
    obtain ⟨t, ht⟩ := Text.exists_slice?_of_isBoundary hlo hhi (Nat.le_of_lt hlt)
    obtain ⟨a, b, _, rfl, rfl⟩ := Text.slice?_eq_some_iff.mp ht
    simp only [ht, Option.getD_some, List.mem_singleton, Stretch.copied.injEq, not_and]
    rintro _ rfl
    simp at hlt
  · exact List.not_mem_nil

/-- A stretch is copied only if there is something in it. -/
theorem stretches_filled {ranges : List Replacement}
    (hranges : ∀ r ∈ ranges, Text.isBoundary r.stop source = true) (stops : List Nat) (done : Nat)
    (hstops : ∀ p ∈ stops, Text.isBoundary p source = true)
    (hdone : Text.isBoundary done source = true) (offset : Nat) :
    .copied offset [] ∉ stretches source edits ranges stops done := by
  induction stops generalizing done with
  | nil => exact copy_filled hdone (Text.isBoundary_width source) offset
  | cons pos rest ih =>
    have hpos := hstops pos (by simp)
    have hrest := fun done => ih done fun p hp => hstops p (by simp [hp])
    rw [stretches, List.mem_append, List.mem_append, not_or, not_or]
    refine ⟨⟨copy_filled hdone hpos offset, by simp⟩, ?_⟩
    split
    · refine hrest _ ?_
      rcases Nat.le_total done pos with hle | hle
      · rwa [Nat.max_eq_right hle]
      · rwa [Nat.max_eq_left hle]
    · rename_i r hr
      simp only [List.mem_cons, reduceCtorEq, false_or]
      exact hrest r.stop (hranges r (List.mem_of_find?_eq_some hr))

/-- What is kept at an offset stands behind what the edits give in front of it, and nowhere else. -/
theorem origins_split {p : Nat} {c : Char} (hc : Text.charAt? p source = some c)
    (hkept : isCovered edits p = false) : ∃ X Y,
    (List.range (Text.width source + 1)).flatMap (originsAt source edits) =
      X ++ (c, some p) :: Y ∧ X.map Prod.fst = inFront source edits p ∧
      (c, some p) ∉ X ∧ (c, some p) ∉ Y := by
  have hp : p < Text.width source + 1 := by
    obtain ⟨a, b, rfl, rfl⟩ := Text.charAt?_eq_some_iff.mp hc
    rw [Text.width_append]
    omega
  have hat : originsAt source edits p = (addedAt edits p).map (·, none) ++ [(c, some p)] := by
    simp [originsAt, keptAt, hkept, hc]
  refine ⟨(List.range p).flatMap (originsAt source edits) ++ (addedAt edits p).map (·, none),
    (List.range' (p + 1) (Text.width source + 1 - p - 1)).flatMap (originsAt source edits),
    ?_, ?_, by simp [originsAt], by simp [originsAt]⟩
  · rw [range_split hp, List.flatMap_append, List.flatMap_cons, hat]
    simp
  · simp only [List.map_append, List.map_flatMap, originsAt, map_fst_pair, inFront]

/-- A character of the result that was copied is not covered by an edit. -/
theorem mem_origins {x : Char × Option Nat} {p : Nat}
    (h : x ∈ (List.range (Text.width source + 1)).flatMap (originsAt source edits))
    (hx : x.2 = some p) : Text.charAt? p source = some x.1 ∧ isCovered edits p = false := by
  obtain ⟨c, origin⟩ := x
  obtain ⟨q, _, hq⟩ := List.mem_flatMap.mp h
  subst hx
  simp only [originsAt, keptAt, List.mem_append, List.mem_map, Prod.mk.injEq, reduceCtorEq,
    and_false, exists_false, Option.some.injEq, false_or] at hq
  obtain ⟨_, hkept, rfl, rfl⟩ := hq
  split at hkept
  · cases hkept
  · rename_i hnot
    exact ⟨Option.mem_toList.mp hkept, Bool.eq_false_iff.mpr hnot⟩

/-- Where a copied character stands in the result. -/
theorem origins_front {c : Char} {p : Nat}
    (h : (List.range (Text.width source + 1)).flatMap (originsAt source edits) =
      X ++ (c, some p) :: Y) : X.map Prod.fst = inFront source edits p := by
  obtain ⟨hc, hkept⟩ := mem_origins (x := (c, some p)) (by rw [h]; simp) rfl
  obtain ⟨X', Y', hsplit, hfront, hX, hY⟩ := origins_split hc hkept
  have heq := (List.append_cons_inj_of_notMem hX hY).mp (hsplit.symm.trans h)
  rw [← heq.1]
  exact hfront

/-- Characters are copied in the order of the source. -/
theorem origins_increasing (source : List Char) (edits : List Edit) :
    (((List.range (Text.width source + 1)).flatMap (originsAt source edits)).filterMap
      Prod.snd).Pairwise (· < ·) := by
  have hat (p : Nat) : ∀ x ∈ originsAt source edits p, ∀ q ∈ x.2, p = q := by
    intro x hx q hq
    rcases List.mem_append.mp hx with hx | hx
    · obtain ⟨c, _, rfl⟩ := List.mem_map.mp hx
      cases hq
    · obtain ⟨c, _, rfl⟩ := List.mem_map.mp hx
      exact Option.some.inj hq
  -- at one offset at most one character is kept, and the offsets increase
  rw [List.pairwise_filterMap, List.pairwise_flatMap]
  constructor
  · intro p _
    have hkept : keptAt source edits p = [] ∨ ∃ c, keptAt source edits p = [c] := by
      rw [keptAt]
      split
      · exact .inl rfl
      · cases Text.charAt? p source with
        | none => exact .inl rfl
        | some c => exact .inr ⟨c, rfl⟩
    rw [originsAt, List.pairwise_append]
    refine ⟨List.pairwise_map.mpr (List.pairwise_of_forall (by simp)), ?_, by simp⟩
    rcases hkept with hkept | ⟨c, hkept⟩ <;> simp [hkept]
  · refine List.pairwise_lt_range.imp ?_
    intro p q hpq x hx y hy a ha b hb
    rw [← hat p x hx a ha, ← hat q y hy b hb]
    exact hpq

/-- A text whose characters stand in the source one behind the other is a part of it. -/
theorem prefix_of_located {front rest text : List Char}
    (h : ∀ x ∈ Text.located (Text.width front) text, ∀ q ∈ x.2,
      Text.charAt? q (front ++ rest) = some x.1) : text <+: rest := by
  induction text generalizing front rest with
  | nil => exact List.nil_prefix
  | cons c text ih =>
    have hc := h (c, some (Text.width front)) (by simp [Text.located]) _ rfl
    rw [← Nat.add_zero (Text.width front), Text.charAt?_append] at hc
    cases rest with
    | nil => simp at hc
    | cons d rest =>
      obtain rfl := Option.some.inj hc
      have htail : text <+: rest := by
        refine @ih (front ++ [d]) rest fun x hx q hq => ?_
        rw [List.append_assoc]
        refine h x ?_ q hq
        rw [Text.located]
        simpa using Or.inr hx
      exact (List.prefix_cons_inj d).mpr htail

theorem slice?_of_located {offset : Nat} {text : List Char} {c : Char}
    (h : ∀ x ∈ Text.located offset (text ++ [c]), ∀ q ∈ x.2, Text.charAt? q source = some x.1) :
    Text.slice? offset (offset + Text.width text) source = some text := by
  obtain ⟨first, tail, hfirst⟩ := List.exists_cons_of_ne_nil (List.append_ne_nil_of_right_ne_nil text
    (List.cons_ne_nil c []))
  have hstart := h (first, some offset) (by rw [hfirst, Text.located]; exact List.mem_cons_self) _ rfl
  obtain ⟨front, back, rfl, rfl⟩ := Text.charAt?_eq_some_iff.mp hstart
  obtain ⟨behind, hbehind⟩ := prefix_of_located h
  refine Text.slice?_eq_some_iff.mpr ⟨front, c :: behind, ?_, rfl, rfl⟩
  rw [← hbehind]
  simp

end Copies

section Results

variable {source : List Char} {s : EditSet} {out : Spliced}

/-- The stretches of an applied set: nothing empty is copied, and they hold what the edits give. -/
theorem apply_stretches (hbuilt : s.Built) (h : s.apply source = .ok out) : ∃ parts,
    out.code = parts.flatMap Stretch.text ∧ out.mappings = mappings {} parts ∧
      (∀ offset, .copied offset [] ∉ parts) ∧ parts.flatMap Stretch.origins =
        (List.range (Text.width source + 1)).flatMap (originsAt source s.edits) := by
  have hfilled := ranges_filled_of_built hbuilt
  unfold EditSet.apply at h
  split at h
  · cases h
  · rename_i hfault
    have hplaced := (fault_eq_none_iff hfilled).mp hfault
    obtain rfl := Except.ok.inj h
    refine ⟨_, rfl, rfl, ?_, stretches_origins hfilled hplaced⟩
    refine stretches_filled ?_ _ 0 ?_ (Text.isBoundary_zero source)
    · intro r hr
      obtain ⟨e, he, hr⟩ := mem_replacements.mp hr
      rw [(replacement?_start hr).2]
      exact hplaced.stop_boundary e he
    · intro p hp
      obtain ⟨e, he, rfl⟩ := List.mem_map.mp (mem_increasing.mp hp)
      exact hplaced.start_boundary e he

/-- Mappings belong to copied characters, in their order. -/
theorem apply_mappings_sublist (hbuilt : s.Built) (h : s.apply source = .ok out) :
    out.mappings.Sublist (fullMappings {}
      ((List.range (Text.width source + 1)).flatMap (originsAt source s.edits))) := by
  obtain ⟨parts, _, hmappings, hfilled, horigins⟩ := apply_stretches hbuilt h
  rw [hmappings, ← horigins]
  exact mappings_sublist {} parts hfilled

theorem apply_mappings_increasing (hbuilt : s.Built) (h : s.apply source = .ok out) :
    out.mappings.Pairwise fun a b => a.place.Before b.place ∧ a.offset < b.offset := by
  have hoffsets := origins_increasing source s.edits
  rw [← fullMappings_offsets {}, List.pairwise_map] at hoffsets
  exact ((fullMappings_places _ _).and hoffsets).sublist (apply_mappings_sublist hbuilt h)

theorem copiedTo_of_split (hbuilt : s.Built) (h : s.apply source = .ok out) {c : Char} {p : Nat}
    (hsplit : (List.range (Text.width source + 1)).flatMap (originsAt source s.edits) =
      X ++ (c, some p) :: Y) :
    CopiedTo source s.edits out.code p (Place.after {} (X.map Prod.fst)) := by
  obtain ⟨hc, hkept⟩ := mem_origins (x := (c, some p)) (by rw [hsplit]; simp) rfl
  have hfront := origins_front hsplit
  obtain ⟨parts, hcode, _, _, horigins⟩ := apply_stretches hbuilt h
  refine ⟨hkept, ⟨c, Y.map Prod.fst, hc, ?_⟩, by rw [hfront, after_eq_placeBehind]⟩
  have htext := congrArg (List.map Prod.fst) (horigins.trans hsplit)
  rw [List.map_flatMap, List.map_append, List.map_cons, hfront] at htext
  simpa only [hcode, Stretch.origins_fst] using htext

theorem lastUpTo?_of_split {earlier later : List Mapping} {place : Place}
    (hm : ¬ place.Before m.place) (hlater : ∀ k ∈ later, place.Before k.place) :
    lastUpTo? (earlier ++ m :: later) place = some m := by
  have hnone : later.filter (fun k => !decide (place.Before k.place)) = [] := by
    rw [List.filter_eq_nil_iff]
    intro k hk
    simpa using hlater k hk
  rw [lastUpTo?, List.filter_append, List.filter_cons_of_pos (by simpa using hm), hnone,
    List.getLast?_concat]

/-- If edits can be applied, then every mapping names the place at which the character at its offset
has been copied, mappings increase by place and by offset, and the place of each character that is
copied is that of the last mapping up to it, moved on by the text between them, which is part of one
line. -/
theorem apply_mappings_exact (source : List Char) (s : EditSet) (hbuilt : s.Built) (out : Spliced)
    (h : s.apply source = .ok out) :
    (∀ m ∈ out.mappings, CopiedTo source s.edits out.code m.offset m.place) ∧
      (out.mappings.Pairwise fun a b => a.place.Before b.place ∧ a.offset < b.offset) ∧
      ∀ p c, Text.charAt? p source = some c → isCovered s.edits p = false →
        ∃ place m between, CopiedTo source s.edits out.code p place ∧
          lastUpTo? out.mappings place = some m ∧
          Text.slice? m.offset p source = some between ∧ '\n' ∉ between ∧
          place = { line := m.line, column := m.column + Text.unitsOf between } := by
  refine ⟨?_, apply_mappings_increasing hbuilt h, ?_⟩
  · intro m hm
    obtain ⟨X, c, Y, hsplit, hplace⟩ :=
      mem_fullMappings ((apply_mappings_sublist hbuilt h).subset hm)
    rw [hplace]
    exact copiedTo_of_split hbuilt h hsplit
  · intro p c hc hkept
    obtain ⟨X, Y, hsplit, _⟩ := origins_split hc hkept
    obtain ⟨parts, _, hmappings, hfilled, horigins⟩ := apply_stretches hbuilt h
    obtain ⟨earlier, m, later, init, between, hmarks, rfl, hoffset, hm, hline, hlater⟩ :=
      mappings_reach {} hfilled (horigins.trans hsplit)
    have hplace : Place.after {} ((init ++ Text.located m.offset between).map Prod.fst) =
        { line := m.line, column := m.column + Text.unitsOf between } := by
      rw [List.map_append, Text.located_fst, Place.after_append, ← hm, Place.after_line _ hline]
      rfl
    refine ⟨_, m, between, copiedTo_of_split hbuilt h hsplit, ?_, ?_, hline, hplace⟩
    · -- the later mappings are those of characters behind `c`
      rw [hmappings, hmarks]
      refine lastUpTo?_of_split ?_ fun k hk =>
        fullMappings_behind (Place.before_next _ c) (hlater.subset hk)
      rw [hplace]
      simp [Place.Before, Mapping.place]
    · -- all of `between` and `c` itself are kept, each character at its own offset
      rw [hoffset]
      refine @slice?_of_located source _ _ c fun x hx q hq => ?_
      refine (@mem_origins source s.edits _ _ ?_ hq).1
      rw [hsplit]
      rw [Text.located_append, ← hoffset] at hx
      rcases List.mem_append.mp hx with hx | hx
      · exact List.mem_append_left _ (List.mem_append_right _ hx)
      · rw [List.mem_singleton.mp hx]
        simp

/-- A text of three lines with a character of four bytes and two units; a line is inserted, and a
character of two bytes is removed. The last line feed has no mapping of its own. -/
theorem apply_mappings_exact_lines : ∃ (s : EditSet) (out : Spliced), s.Built ∧
    s.apply "añ\n😀b\nc".toList = .ok out ∧
    out.mappings = [⟨1, 0, 0⟩, ⟨1, 1, 3⟩, ⟨2, 0, 4⟩, ⟨2, 4, 8⟩, ⟨3, 0, 10⟩] ∧
    lastUpTo? out.mappings { line := 2, column := 5 } = some ⟨2, 4, 8⟩ ∧
    (∃ between, Text.slice? 8 9 "añ\n😀b\nc".toList = some between ∧ '\n' ∉ between) ∧
    CopiedTo "añ\n😀b\nc".toList s.edits out.code 9 { line := 2, column := 5 } := by
  let s := ((({} : EditSet).insertBefore 0 "x\n").remove 1 3).insertAfter 8 ".v"
  let out : Spliced := ⟨"x\na\n😀.vb\nc".toList,
    [⟨1, 0, 0⟩, ⟨1, 1, 3⟩, ⟨2, 0, 4⟩, ⟨2, 4, 8⟩, ⟨3, 0, 10⟩]⟩
  have hbuilt : s.Built := .insertAfter (.remove (.insertBefore .empty 0 "x\n") 1 3) 8 ".v"
  have happly : s.apply "añ\n😀b\nc".toList = .ok out := by cbv
  obtain ⟨place, m, between, hcopied, hlast, hslice, hline, _⟩ :=
    (apply_mappings_exact _ s hbuilt out happly).2.2 9 '\n' (by decide) (by decide)
  have hplace : place = { line := 2, column := 5 } := hcopied.placed.trans (by cbv)
  subst hplace
  have hm : m = ⟨2, 4, 8⟩ := Option.some.inj (hlast.symm.trans (by decide))
  subst hm
  exact ⟨s, out, hbuilt, happly, rfl, hlast, ⟨between, hslice, hline⟩, hcopied⟩

end Results

end Splice

end RefSugar

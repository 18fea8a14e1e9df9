import RefSugar.Proofs.Positions
import RefSugar.Text.Lines

/-! Places in a text whose lines end in any of the usual ways. The table of line starts and the count of
surplus bytes come to the place that reading the text from left to right comes to. -/
namespace RefSugar.Text

/-- A line ends with a line feed, or with a carriage return that no line feed follows. -/
def endsLine (c : Char) (rest : List Char) : Bool :=
  c == '\n' || (c == '\r' && rest.head? != some '\n')

/-- The place behind `front`, with `back` behind it, if `front` starts at `p`. -/
def placeFrom (p : Splice.Place) (back : List Char) : List Char → Splice.Place
  | [] => p
  | c :: front =>
    placeFrom (if endsLine c (front ++ back) then { line := p.line + 1 }
      else { p with column := p.column + units c }) back front

def sourcePlace (text : List Char) (offset : Nat) : Splice.Place :=
  (splitAt? offset text).elim {} fun (front, back) => placeFrom {} back front

/-- A carriage return and a line feed end one line together. -/
theorem lineBreaks_cons (p : Nat) (c : Char) (cs : List Char) :
    lineBreaks p (c :: cs) =
      if endsLine c cs then (p + c.utf8Size) :: lineBreaks (p + c.utf8Size) cs
      else lineBreaks (p + c.utf8Size) cs := by
  have hr : '\r'.utf8Size = 1 := rfl
  have hn : '\n'.utf8Size = 1 := rfl
  by_cases hboth : c = '\r' ∧ cs.head? = some '\n'
  · -- the line feed behind the carriage return ends the line
    obtain ⟨rfl, hhead⟩ := hboth
    obtain ⟨cs, rfl⟩ := List.head?_eq_some_iff.mp hhead
    rw [lineBreaks, lineBreaks]
    · simp [endsLine, hr]
    · simp
  · have hends : endsLine c cs = (c == '\n' || c == '\r') := by
      by_cases hc : c = '\r'
      · have hhead : cs.head? ≠ some '\n' := fun h => hboth ⟨hc, h⟩
        simp [endsLine, hc, hhead]
      · simp [endsLine, beq_eq_false_iff_ne.mpr hc]
    rw [hends, lineBreaks]
    · split
      · rename_i hc
        have hsize : c.utf8Size = 1 := by
          rcases Bool.or_eq_true_iff.mp hc with hc | hc
          · rw [eq_of_beq hc, hn]
          · rw [eq_of_beq hc, hr]
        rw [hsize]
      · rfl
    · rintro rest rfl rfl
      exact hboth ⟨rfl, rfl⟩

/-- A line break ends behind the start of the text. -/
theorem lt_of_mem_lineBreaks {p b : Nat} {cs : List Char} (h : b ∈ lineBreaks p cs) : p < b := by
  induction cs generalizing p with
  | nil => cases h
  | cons c cs ih =>
    have hc := c.utf8Size_pos
    rw [lineBreaks_cons] at h
    split at h
    · rcases List.mem_cons.mp h with rfl | h
      · omega
      · have := ih h
        omega
    · have := ih h
      omega

/-- The line breaks up to the end of `front`, which starts at `p` and goes on with `back`. -/
def breaksWithin (p : Nat) (front back : List Char) : List Nat :=
  (lineBreaks p (front ++ back)).filter (· ≤ p + width front)

theorem breaksWithin_nil (p : Nat) (back : List Char) : breaksWithin p [] back = [] := by
  rw [breaksWithin, List.filter_eq_nil_iff]
  intro b hb
  simpa using lt_of_mem_lineBreaks hb

theorem breaksWithin_cons (p : Nat) (c : Char) (front back : List Char) :
    breaksWithin p (c :: front) back =
      if endsLine c (front ++ back) then
        (p + c.utf8Size) :: breaksWithin (p + c.utf8Size) front back
      else breaksWithin (p + c.utf8Size) front back := by
  have hwidth : p + width (c :: front) = p + c.utf8Size + width front := by
    rw [width_cons, Nat.add_assoc]
  rw [breaksWithin, List.cons_append, lineBreaks_cons, hwidth]
  split
  · rw [List.filter_cons_of_pos (by simp), breaksWithin]
  · rfl

/-- The line breaks in `front` count its lines, and its last line starts at the last of them. What has
been read of the first line is `opened`. -/
theorem placeFrom_breaks (line start : Nat) (opened front back : List Char) :
    ∃ init rest, opened ++ front = init ++ rest ∧
      (start :: breaksWithin (start + width opened) front back).getLast (List.cons_ne_nil _ _) =
        start + width init ∧
      placeFrom { line, column := unitsOf opened } back front =
        { line := line + (breaksWithin (start + width opened) front back).length
          column := unitsOf rest } := by
  induction front generalizing line start opened with
  | nil =>
    refine ⟨[], opened, by simp, by simp [breaksWithin_nil], ?_⟩
    simp [breaksWithin_nil, placeFrom]
  | cons c front ih =>
    rw [placeFrom]
    by_cases hends : endsLine c (front ++ back) = true
    · -- the next line starts behind `c`, and nothing of it has been read
      obtain ⟨init, rest, hfront, hlast, hplace⟩ :=
        ih (line + 1) (start + width opened + c.utf8Size) []
      have hbreaks := breaksWithin_cons (start + width opened) c front back
      rw [if_pos hends] at hbreaks
      rw [width_nil, Nat.add_zero] at hlast hplace
      refine ⟨opened ++ c :: init, rest, by simpa using hfront, ?_, ?_⟩
      · simp only [hbreaks, List.getLast_cons_cons, width_append, width_cons]
        rw [hlast]
        omega
      · rw [if_pos hends, hbreaks, List.length_cons, ← Nat.add_assoc, Nat.add_right_comm]
        exact hplace
    · obtain ⟨init, rest, hfront, hlast, hplace⟩ := ih line start (opened ++ [c])
      have hopened : start + width (opened ++ [c]) = start + width opened + c.utf8Size := by
        simp [Nat.add_assoc]
      have hunits : unitsOf (opened ++ [c]) = unitsOf opened + units c := by
        simp [unitsOf]
      have hbreaks := breaksWithin_cons (start + width opened) c front back
      rw [if_neg hends] at hbreaks
      simp only [hopened, ← hbreaks] at hlast
      rw [hopened, hunits, ← hbreaks] at hplace
      rw [if_neg hends]
      exact ⟨init, rest, by simpa using hfront, hlast, hplace⟩

theorem units_le_utf8Size (c : Char) : units c ≤ c.utf8Size := by
  unfold units Char.utf8Size
  have hval : c.toNat = c.val.toNat := rfl
  simp only [UInt32.le_iff_toNat_le]
  split
  · grind
  · grind

theorem unitsOf_le_width (cs : List Char) : unitsOf cs ≤ width cs := by
  induction cs with
  | nil => simp [unitsOf]
  | cons c cs ih =>
    have hc := units_le_utf8Size c
    simp only [unitsOf, List.map_cons, List.sum_cons, width_cons] at ih ⊢
    omega

theorem surplus_eq (cs : List Char) : surplus cs = width cs - unitsOf cs := by
  induction cs with
  | nil => rfl
  | cons c cs ih =>
    have hc := units_le_utf8Size c
    have hcs := unitsOf_le_width cs
    simp only [surplus, ih, unitsOf, List.map_cons, List.sum_cons, width_cons] at hcs ⊢
    omega

theorem startingWithin_append (a b : List Char) : startingWithin (width a) (a ++ b) = a := by
  induction a with
  | nil => cases b <;> rfl
  | cons c a ih =>
    have hc := c.utf8Size_pos
    obtain ⟨n, hn⟩ : ∃ n, width (c :: a) = n + 1 := ⟨width (c :: a) - 1, by simp; omega⟩
    have hrest : n + 1 - c.utf8Size = width a := by rw [← hn]; simp
    rw [hn, List.cons_append, startingWithin, hrest, ih]

/-- The units of a text are its bytes less the surplus. -/
theorem unitsWithin_append (a b : List Char) : unitsWithin (width a) (a ++ b) = unitsOf a := by
  have hle := unitsOf_le_width a
  rw [unitsWithin, startingWithin_append, surplus_eq]
  omega

/-- In front of a character, the table of line starts tells the place that reading the text tells. -/
theorem placeAt_eq (front : List Char) {back : List Char} (hback : back ≠ []) :
    placeAt (front ++ back) (width front) =
      { line := (placeFrom {} back front).line + 1, column := (placeFrom {} back front).column } := by
  obtain ⟨init, rest, hfront, hlast, hplace⟩ := placeFrom_breaks 0 0 [] front back
  rw [List.nil_append] at hfront
  simp only [width_nil, Nat.zero_add] at hlast hplace
  have hinside : width front < width (front ++ back) := by
    have := (width_eq_zero_iff back).not.mpr hback
    rw [width_append]
    omega
  -- `lineStarts` leaves out a line that starts at the end of the text, which no character follows
  have hbefore : (lineStarts (front ++ back)).filter (· ≤ width front) =
      0 :: breaksWithin 0 front back := by
    have hsome : 0 < width (front ++ back) := Nat.zero_lt_of_lt hinside
    rw [lineStarts, List.filter_filter, List.filter_cons_of_pos (by simpa using hsome), breaksWithin]
    congr 1
    refine List.filter_congr fun b _ => ?_
    rw [Nat.zero_add]
    grind
  have hstart : ((lineStarts (front ++ back)).filter (· ≤ width front)).getLastD 0 = width init := by
    rw [hbefore, ← hlast]
    rw [List.getLastD_eq_getLast?, List.getLast?_eq_some_getLast, Option.getD_some]
  have hsplit : splitAt? (width init) (front ++ back) = some (init, rest ++ back) :=
    splitAt?_eq_some_iff.mpr ⟨by rw [hfront, List.append_assoc], rfl⟩
  have hcolumn : width front - width init = width rest := by
    rw [hfront, width_append]
    omega
  have hunits : placeFrom {} back front = placeFrom { line := 0, column := unitsOf [] } back front := rfl
  rw [hunits, hplace, placeAt, hstart, hsplit, hbefore, hcolumn]
  simp [unitsWithin_append]

end RefSugar.Text

import RefSugar.Text.Bytes

/-! Byte offsets as widths of what stands in front of them. A split or a slice of a text is a way to
write it as a concatenation, so later proofs reason about the parts and not about the scan. -/
namespace RefSugar.Text

variable {hi lo n : Nat} {a b cs : List Char}

theorem width_eq_zero_iff (cs : List Char) : width cs = 0 ↔ cs = [] := by
  cases cs with
  | nil => simp
  | cons c cs =>
    have h := c.utf8Size_pos
    simp only [width_cons, reduceCtorEq, iff_false]
    omega

theorem splitAt?_append (a b : List Char) : splitAt? (width a) (a ++ b) = some (a, b) := by
  induction a with
  | nil => simp [splitAt?]
  | cons c a ih =>
    have hc := c.utf8Size_pos
    obtain ⟨n, hn⟩ : ∃ n, width (c :: a) = n + 1 := ⟨width (c :: a) - 1, by simp; omega⟩
    have hle : c.utf8Size ≤ n + 1 := by rw [← hn]; simp
    have hrest : n + 1 - c.utf8Size = width a := by rw [← hn]; simp
    rw [hn, List.cons_append, splitAt?, if_pos hle, hrest, ih]
    rfl

/-- A split is a way to write the text as a concatenation, the first part as wide as the offset. -/
theorem splitAt?_eq_some_iff :
    splitAt? n cs = some (a, b) ↔ cs = a ++ b ∧ width a = n := by
  constructor
  · intro h
    fun_induction splitAt? n cs generalizing a b with
    | case1 cs => simp_all
    | case2 => simp at h
    | case3 n c cs hle ih =>
      obtain ⟨⟨x, y⟩, hxy, heq⟩ := Option.map_eq_some_iff.mp h
      simp only [Prod.mk.injEq] at heq
      obtain ⟨rfl, rfl⟩ := heq
      obtain ⟨rfl, hw⟩ := ih hxy
      refine ⟨rfl, ?_⟩
      rw [width_cons, hw]
      omega
    | case4 => simp at h
  · rintro ⟨rfl, rfl⟩
    exact splitAt?_append a b

theorem isBoundary_iff :
    isBoundary n cs = true ↔ ∃ a b, cs = a ++ b ∧ width a = n := by
  rw [isBoundary, Option.isSome_iff_exists]
  constructor
  · rintro ⟨⟨a, b⟩, h⟩
    exact ⟨a, b, splitAt?_eq_some_iff.mp h⟩
  · rintro ⟨a, b, h⟩
    exact ⟨(a, b), splitAt?_eq_some_iff.mpr h⟩

theorem isBoundary_zero (cs : List Char) : isBoundary 0 cs = true :=
  isBoundary_iff.mpr ⟨[], cs, rfl, rfl⟩

theorem isBoundary_width (cs : List Char) : isBoundary (width cs) cs = true :=
  isBoundary_iff.mpr ⟨cs, [], by simp, rfl⟩

theorem isBoundary_le_width (h : isBoundary n cs = true) :
    n ≤ width cs := by
  obtain ⟨a, b, rfl, rfl⟩ := isBoundary_iff.mp h
  rw [width_append]
  omega

/-- Of two ways to cut a text in two, the longer first part extends the shorter one. -/
theorem append_split_of_width_le {c d : List Char} (h : a ++ b = c ++ d)
    (hw : width a ≤ width c) : ∃ e, c = a ++ e ∧ b = e ++ d := by
  rcases List.append_eq_append_iff.mp h with ⟨e, rfl, rfl⟩ | ⟨e, rfl, rfl⟩
  · exact ⟨e, rfl, rfl⟩
  · have he : width e = 0 := by
      rw [width_append] at hw
      omega
    rw [width_eq_zero_iff] at he
    subst he
    exact ⟨[], by simp, by simp⟩

/-- A text is cut at an offset in one way. -/
theorem append_inj_of_width {c d : List Char} (h : a ++ b = c ++ d)
    (hw : width a = width c) : a = c ∧ b = d := by
  obtain ⟨e, rfl, rfl⟩ := append_split_of_width_le h (Nat.le_of_eq hw)
  obtain rfl : e = [] := by
    rw [← width_eq_zero_iff]
    rw [width_append] at hw
    omega
  exact ⟨(List.append_nil a).symm, rfl⟩

/-- A slice is the middle of three parts that make up the text. -/
theorem slice?_eq_some_iff {t : List Char} :
    slice? lo hi cs = some t ↔
      ∃ a b, cs = a ++ t ++ b ∧ width a = lo ∧ width a + width t = hi := by
  constructor
  · intro h
    unfold slice? at h
    split at h
    · rename_i hle
      obtain ⟨⟨a, rest⟩, hsplit, hrest⟩ := Option.bind_eq_some_iff.mp h
      obtain ⟨⟨t', b⟩, hcut, rfl⟩ := Option.map_eq_some_iff.mp hrest
      obtain ⟨rfl, rfl⟩ := splitAt?_eq_some_iff.mp hsplit
      obtain ⟨rfl, hw⟩ := splitAt?_eq_some_iff.mp hcut
      refine ⟨a, b, by simp, rfl, ?_⟩
      simp only at hw ⊢
      omega
    · simp at h
  · rintro ⟨a, b, rfl, rfl, rfl⟩
    have hsplit : splitAt? (width a) (a ++ t ++ b) = some (a, t ++ b) :=
      splitAt?_eq_some_iff.mpr ⟨by simp, rfl⟩
    have hcut : splitAt? (width a + width t - width a) (t ++ b) = some (t, b) :=
      splitAt?_eq_some_iff.mpr ⟨rfl, by omega⟩
    unfold slice?
    rw [if_pos (by omega), hsplit]
    change (splitAt? (width a + width t - width a) (t ++ b)).map _ = _
    rw [hcut]
    rfl

/-- Between two boundaries in order there is a slice. -/
theorem exists_slice?_of_isBoundary (hlo : isBoundary lo cs = true)
    (hhi : isBoundary hi cs = true) (hle : lo ≤ hi) : ∃ t, slice? lo hi cs = some t := by
  obtain ⟨a, b, hab, rfl⟩ := isBoundary_iff.mp hlo
  obtain ⟨c, d, hcd, rfl⟩ := isBoundary_iff.mp hhi
  obtain ⟨t, rfl, rfl⟩ := append_split_of_width_le (hab.symm.trans hcd) hle
  exact ⟨t, slice?_eq_some_iff.mpr ⟨a, d, by simpa using hab, rfl, by simp⟩⟩

def charAt? : Nat → List Char → Option Char
  | _, [] => none
  | 0, c :: _ => some c
  | n + 1, c :: cs => if c.utf8Size ≤ n + 1 then charAt? (n + 1 - c.utf8Size) cs else none

@[simp] theorem charAt?_nil (n : Nat) : charAt? n [] = none := by
  cases n <;> rfl

theorem charAt?_append (a b : List Char) (n : Nat) : charAt? (width a + n) (a ++ b) = charAt? n b := by
  induction a with
  | nil => simp
  | cons c a ih =>
    have hc := c.utf8Size_pos
    obtain ⟨m, hm⟩ : ∃ m, width (c :: a) + n = m + 1 := ⟨width (c :: a) + n - 1, by simp; omega⟩
    have hle : c.utf8Size ≤ m + 1 := by rw [← hm]; simp; omega
    have hrest : m + 1 - c.utf8Size = width a + n := by rw [← hm]; simp; omega
    rw [hm, List.cons_append, charAt?, if_pos hle, hrest, ih]

/-- Inside a character no other one starts. -/
theorem charAt?_inside {c : Char} (h0 : 0 < n) (hn : n < c.utf8Size) (cs : List Char) :
    charAt? n (c :: cs) = none := by
  obtain ⟨m, rfl⟩ : ∃ m, n = m + 1 := ⟨n - 1, by omega⟩
  rw [charAt?, if_neg (by omega)]

/-- A character starts at an offset if what stands before it is as wide. -/
theorem charAt?_eq_some_iff {c : Char} :
    charAt? n cs = some c ↔ ∃ a b, cs = a ++ c :: b ∧ width a = n := by
  constructor
  · intro h
    fun_induction charAt? n cs with
    | case1 => cases h
    | case2 d cs =>
      obtain rfl := Option.some.inj h
      exact ⟨[], cs, rfl, rfl⟩
    | case3 n d cs hle ih =>
      obtain ⟨a, b, rfl, hw⟩ := ih h
      exact ⟨d :: a, b, rfl, by rw [width_cons, hw]; omega⟩
    | case4 => cases h
  · rintro ⟨a, b, rfl, rfl⟩
    exact charAt?_append a (c :: b) 0

/-- The characters of a text that starts at an offset, each with the offset it starts at. -/
def located : Nat → List Char → List (Char × Option Nat)
  | _, [] => []
  | p, c :: cs => (c, some p) :: located (p + c.utf8Size) cs

@[simp] theorem located_fst (p : Nat) (cs : List Char) : (located p cs).map Prod.fst = cs := by
  induction cs generalizing p with
  | nil => rfl
  | cons c cs ih => rw [located, List.map_cons, ih]

theorem located_append (p : Nat) (a b : List Char) :
    located p (a ++ b) = located p a ++ located (p + width a) b := by
  induction a generalizing p with
  | nil => rfl
  | cons c a ih => simp [located, ih, Nat.add_assoc]

/-- The characters that start between two offsets, each with the offset it starts at. -/
def locatedBetween (lo hi : Nat) (cs : List Char) : List (Char × Option Nat) :=
  (List.range' lo (hi - lo)).flatMap fun p => (charAt? p cs).toList.map (·, some p)

/-- The characters between the ends of a part are those of the part. -/
theorem locatedBetween_append (a t b : List Char) :
    locatedBetween (width a) (width a + width t) (a ++ t ++ b) = located (width a) t := by
  unfold locatedBetween
  induction t generalizing a with
  | nil => simp [located]
  | cons c t ih =>
    -- the offsets inside `c` contribute nothing, those behind it are the rest of the slice
    have hc := c.utf8Size_pos
    have hlen : width a + width (c :: t) - width a = 1 + (c.utf8Size - 1) + width t := by
      simp only [width_cons]; omega
    have hfirst : charAt? (width a) (a ++ c :: t ++ b) = some c := by
      have h := charAt?_append a (c :: t ++ b) 0
      simpa [charAt?] using h
    have hinside : (List.range' (width a + 1) (c.utf8Size - 1)).flatMap
        (fun p => (charAt? p (a ++ c :: t ++ b)).toList.map (·, some p)) = [] := by
      rw [List.flatMap_eq_nil_iff]
      intro p hp
      rw [List.mem_range'_1] at hp
      obtain ⟨n, rfl⟩ : ∃ n, p = width a + n := ⟨p - width a, by omega⟩
      have h := charAt?_append a (c :: t ++ b) n
      rw [List.append_assoc, h, List.cons_append, charAt?_inside (by omega) (by omega)]
      rfl
    have hrest := ih (a ++ [c])
    simp only [width_append, width_cons, width_nil, Nat.add_zero, List.append_assoc,
      List.cons_append, List.nil_append, Nat.add_sub_cancel_left] at hrest
    have hstart : width a + 1 + (c.utf8Size - 1) = width a + c.utf8Size := by omega
    rw [hlen, Nat.add_assoc, ← List.range'_append_1, ← List.range'_append_1, List.flatMap_append,
      List.flatMap_append, hinside, hstart]
    simp only [List.append_assoc, List.cons_append] at hfirst ⊢
    rw [hrest]
    simp [hfirst, located]

/-- A slice holds the characters that start in it. -/
theorem slice?_located {t : List Char} (h : slice? lo hi cs = some t) :
    located lo t = locatedBetween lo hi cs := by
  obtain ⟨a, b, rfl, rfl, rfl⟩ := slice?_eq_some_iff.mp h
  exact (locatedBetween_append a t b).symm

end RefSugar.Text

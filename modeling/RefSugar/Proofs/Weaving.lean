import RefSugar.Proofs.Splicing
import RefSugar.Proofs.WalkEdits

/-! Edits of separate pieces of a text. Where two pieces meet and not both are edited there, the
edits of the whole are applied piece by piece. -/
namespace RefSugar

def Replacement.shift (n : Nat) (r : Replacement) : Replacement :=
  ⟨n + r.start, n + r.stop, r.text⟩

namespace Splice

section Apply

variable {source : List Char} {edits : List Edit}

/-- Placed edits can be applied. -/
theorem apply_of_placed (hfilled : RangesFilled edits) (hplaced : Placed source edits) :
    ∃ out, EditSet.apply ⟨edits⟩ source = .ok out ∧ out.code = byOffset source edits := by
  unfold EditSet.apply
  rw [(fault_eq_none_iff hfilled).mpr hplaced]
  exact ⟨_, rfl, stretches_byOffset hfilled hplaced⟩

end Apply

section Pieces

variable {E F : List Edit} {p n : Nat}

theorem addedAt_eq_nil_iff {edits : List Edit} : addedAt edits p = [] ↔
    afterAt edits p = [] ∧ beforeAt edits p = [] ∧ replacingAt edits p = [] := by
  simp [addedAt]

theorem find?_replacement {edits : List Edit} (h : ∀ e ∈ edits, e.start ≠ p) :
    (edits.filterMap replacement?).find? (·.start == p) = none := by
  rw [List.find?_eq_none]
  intro r hr
  obtain ⟨e, he, hr⟩ := List.mem_filterMap.mp hr
  have hne := h e he
  rw [← (replacement?_start hr).1] at hne
  simpa using hne

/-- Where no edit of the second list starts, it adds nothing. -/
theorem addedAt_append_left (h : ∀ e ∈ F, e.start ≠ p) : addedAt (E ++ F) p = addedAt E p := by
  obtain ⟨hafter, hbefore, _⟩ := addedAt_eq_nil_iff.mp (addedAt_eq_nil h)
  have hfind := find?_replacement h
  simp only [addedAt, afterAt, beforeAt, replacingAt, List.flatMap_append, List.filterMap_append,
    List.find?_append] at hafter hbefore ⊢
  rw [hafter, hbefore, hfind, Option.or_none, List.append_nil, List.append_nil]

theorem addedAt_append_right (h : ∀ e ∈ E, e.start ≠ p) : addedAt (E ++ F) p = addedAt F p := by
  obtain ⟨hafter, hbefore, _⟩ := addedAt_eq_nil_iff.mp (addedAt_eq_nil h)
  have hfind := find?_replacement h
  simp only [addedAt, afterAt, beforeAt, replacingAt, List.flatMap_append, List.filterMap_append,
    List.find?_append] at hafter hbefore ⊢
  rw [hafter, hbefore, hfind, Option.none_or, List.nil_append, List.nil_append]

/-- Where the first list only adds behind and the second only in front, they add in order. -/
theorem addedAt_append (hE : ∀ e ∈ E, replacement? e = none) (hbefore : beforeAt E p = [])
    (hafter : afterAt F p = []) : addedAt (E ++ F) p = addedAt E p ++ addedAt F p := by
  have hreplacements : E.filterMap replacement? = [] := List.filterMap_eq_nil_iff.mpr hE
  simp only [addedAt, afterAt, beforeAt, replacingAt, List.flatMap_append, List.filterMap_append,
    hreplacements] at hbefore hafter ⊢
  simp [hbefore, hafter]

theorem replacement?_shift (n : Nat) (e : Edit) :
    replacement? (e.shift n) = (replacement? e).map (Replacement.shift n) := by
  cases e <;> rfl

theorem replacements_shift (n : Nat) (F : List Edit) :
    (F.map (Edit.shift n)).filterMap replacement? =
      (F.filterMap replacement?).map (Replacement.shift n) := by
  rw [List.filterMap_map, List.map_filterMap]
  congr 1
  funext e
  exact replacement?_shift n e

/-- Edits that are moved add the same at offsets that are moved with them. -/
theorem addedAt_shift (n : Nat) (F : List Edit) (p : Nat) :
    addedAt (F.map (Edit.shift n)) (n + p) = addedAt F p := by
  have hafter : afterAt (F.map (Edit.shift n)) (n + p) = afterAt F p := by
    rw [afterAt, afterAt, List.flatMap_map]
    exact List.flatMap_congr fun e _ => by cases e <;> simp [Edit.shift]
  have hbefore : beforeAt (F.map (Edit.shift n)) (n + p) = beforeAt F p := by
    rw [beforeAt, beforeAt, List.flatMap_map]
    exact List.flatMap_congr fun e _ => by cases e <;> simp [Edit.shift]
  have hreplacing : replacingAt (F.map (Edit.shift n)) (n + p) = replacingAt F p := by
    have hstart : ((·.start == n + p) ∘ Replacement.shift n : Replacement → Bool) =
        (·.start == p) := by
      funext r
      simp [Replacement.shift]
    rw [replacingAt, replacingAt, replacements_shift, List.find?_map, hstart]
    cases (F.filterMap replacement?).find? (·.start == p) <;> rfl
  rw [addedAt, addedAt, hafter, hbefore, hreplacing]

theorem isCovered_append (E F : List Edit) (p : Nat) :
    isCovered (E ++ F) p = (isCovered E p || isCovered F p) := by
  simp [isCovered, List.filterMap_append]

theorem isCovered_shift (n : Nat) (F : List Edit) (p : Nat) :
    isCovered (F.map (Edit.shift n)) (n + p) = isCovered F p := by
  rw [isCovered, isCovered, replacements_shift, List.any_map]
  congr 1
  funext r
  simp [Replacement.shift]

/-- Outside of what edits span, they cover nothing. -/
theorem isCovered_eq_false {edits : List Edit} (h : ∀ e ∈ edits, p < e.start ∨ e.stop ≤ p) :
    isCovered edits p = false := by
  rw [isCovered, List.any_eq_false]
  intro r hr
  obtain ⟨e, he, hr⟩ := List.mem_filterMap.mp hr
  obtain ⟨hstart, hstop⟩ := replacement?_start hr
  have := h e he
  simp only [Bool.and_eq_true, decide_eq_true_eq]
  omega

end Pieces

section Seams

variable {a b : List Char} {E F : List Edit}

theorem charAt?_front {p : Nat} (hp : p < Text.width a) :
    Text.charAt? p (a ++ b) = Text.charAt? p a := by
  induction a generalizing p with
  | nil => simp at hp
  | cons c a ih =>
    cases p with
    | zero => rfl
    | succ p =>
      rw [List.cons_append, Text.charAt?, Text.charAt?]
      split
      · rw [Text.width_cons] at hp
        exact ih (by omega)
      · rfl

theorem charAt?_end (a : List Char) : Text.charAt? (Text.width a) a = none := by
  have h := Text.charAt?_append a [] 0
  rwa [List.append_nil, Nat.add_zero, Text.charAt?_nil] at h

theorem byOffset_nil (a : List Char) : byOffset a [] = a := by
  have hkept : ∀ p, addedAt [] p ++ keptAt a [] p = (Text.charAt? p a).toList := by
    intro p
    simp [addedAt, afterAt, beforeAt, replacingAt, keptAt, isCovered]
  have hall := congrArg (List.map Prod.fst) (Text.locatedBetween_append [] a [])
  simp only [Text.locatedBetween, Text.located_fst, List.map_flatMap, map_fst_pair, Text.width_nil,
    Nat.zero_add, Nat.sub_zero, List.nil_append, List.append_nil, ← List.range_eq_range'] at hall
  rw [byOffset, List.flatMap_congr (fun p _ => hkept p), List.range_succ, List.flatMap_append, hall]
  simp [charAt?_end]

/-- Two pieces of a text are edited separately, if what they add where they meet comes in order. -/
theorem byOffset_append_of_meet (hE : ∀ e ∈ E, e.start ≤ e.stop ∧ e.stop ≤ Text.width a)
    (hmeet : addedAt (E ++ F.map (Edit.shift (Text.width a))) (Text.width a) =
      addedAt E (Text.width a) ++ addedAt F 0) :
    byOffset (a ++ b) (E ++ F.map (Edit.shift (Text.width a))) = byOffset a E ++ byOffset b F := by
  have hF : ∀ e ∈ F.map (Edit.shift (Text.width a)), Text.width a ≤ e.start := by
    intro e he
    obtain ⟨f, _, rfl⟩ := List.mem_map.mp he
    rw [(Edit.shift_ends _ f).1]
    exact Nat.le_add_right _ _
  -- in front of the end of `a` only `E` has a say, and behind it only `F`
  have hfront : ∀ p < Text.width a,
      addedAt (E ++ F.map (Edit.shift (Text.width a))) p ++
          keptAt (a ++ b) (E ++ F.map (Edit.shift (Text.width a))) p =
        addedAt E p ++ keptAt a E p := by
    intro p hp
    have hcovered : isCovered (F.map (Edit.shift (Text.width a))) p = false :=
      isCovered_eq_false fun e he => .inl (Nat.lt_of_lt_of_le hp (hF e he))
    rw [addedAt_append_left (fun e he => by have := hF e he; omega), keptAt, keptAt,
      isCovered_append, hcovered, Bool.or_false, charAt?_front hp]
  have hbackKept : ∀ q, keptAt (a ++ b) (E ++ F.map (Edit.shift (Text.width a))) (Text.width a + q) =
      keptAt b F q := by
    intro q
    have hcovered : isCovered E (Text.width a + q) = false :=
      isCovered_eq_false fun e he => .inr (by have := hE e he; omega)
    rw [keptAt, keptAt, isCovered_append, hcovered, Bool.false_or, isCovered_shift,
      Text.charAt?_append]
  have hback : ∀ q, 0 < q →
      addedAt (E ++ F.map (Edit.shift (Text.width a))) (Text.width a + q) = addedAt F q := by
    intro q hq
    rw [addedAt_append_right (fun e he => by have := hE e he; omega), addedAt_shift]
  have hends : keptAt a E (Text.width a) = [] := by
    rw [keptAt, charAt?_end]
    split <;> rfl
  have hkept := hbackKept 0
  rw [Nat.add_zero] at hkept
  calc byOffset (a ++ b) (E ++ F.map (Edit.shift (Text.width a)))
    _ = ((List.range (Text.width a)).flatMap fun p => addedAt E p ++ keptAt a E p) ++
          ((addedAt E (Text.width a) ++ addedAt F 0 ++ keptAt b F 0) ++
            (List.range (Text.width b)).flatMap fun q =>
              addedAt F (q + 1) ++ keptAt b F (q + 1)) := by
      rw [byOffset, Text.width_append, Nat.add_assoc, List.range_add, List.flatMap_append,
        List.flatMap_map, List.range_succ_eq_map, List.flatMap_cons, List.flatMap_map, Nat.add_zero,
        hmeet, hkept, List.flatMap_congr fun p hp => hfront p (List.mem_range.mp hp)]
      congr 2
      exact List.flatMap_congr fun q _ => by rw [hbackKept, hback _ (Nat.succ_pos q)]
    _ = byOffset a E ++ byOffset b F := by
      rw [byOffset, byOffset, List.range_succ, List.flatMap_append, List.flatMap_singleton, hends,
        List.range_succ_eq_map, List.flatMap_cons, List.flatMap_map]
      simp only [List.append_nil, List.append_assoc]

/-- Two pieces of a text are edited separately, unless both are edited where they meet. -/
theorem byOffset_append (hE : ∀ e ∈ E, e.start ≤ e.stop ∧ e.stop ≤ Text.width a)
    (hseam : (∀ e ∈ E, e.start < Text.width a) ∨ ∀ e ∈ F, 0 < e.start) :
    byOffset (a ++ b) (E ++ F.map (Edit.shift (Text.width a))) = byOffset a E ++ byOffset b F := by
  apply byOffset_append_of_meet hE
  rcases hseam with hseam | hseam
  · have hnone : ∀ e ∈ E, e.start ≠ Text.width a := fun e he => by have := hseam e he; omega
    have hshift := addedAt_shift (Text.width a) F 0
    rw [Nat.add_zero] at hshift
    rw [addedAt_append_right hnone, addedAt_eq_nil hnone, hshift, List.nil_append]
  · have hnone : addedAt F 0 = [] := addedAt_eq_nil fun e he => by have := hseam e he; omega
    rw [addedAt_append_left, hnone, List.append_nil]
    intro e he
    obtain ⟨f, hf, rfl⟩ := List.mem_map.mp he
    have := hseam f hf
    rw [(Edit.shift_ends _ f).1]
    omega

/-- A text behind a gap is put between two others. -/
theorem byOffset_enclosed (gap : List Char) {text : List Char} (htext : 0 < Text.width text)
    (opening closing : String) :
    byOffset (gap ++ text)
      [.insertBefore (Text.width gap) opening,
        .insertAfter (Text.width (gap ++ text)) closing] =
      gap ++ (opening.toList ++ text ++ closing.toList) := by
  have hopening : byOffset [] [.insertBefore 0 opening] = opening.toList := by
    simp [byOffset, addedAt, afterAt, beforeAt, replacingAt,
      keptAt, replacement?]
  have hclosing : byOffset [] [.insertAfter 0 closing] = closing.toList := by
    simp [byOffset, addedAt, afterAt, beforeAt, replacingAt,
      keptAt, replacement?]
  have hfront : byOffset text [.insertBefore 0 opening] = opening.toList ++ text := by
    have h := @byOffset_append [] text [.insertBefore 0 opening] []
      (by simp [Edit.start, Edit.stop]) (.inr (by simp))
    simpa [hopening, byOffset_nil] using h
  have hback := @byOffset_append text [] [.insertBefore 0 opening] [.insertAfter 0 closing]
    (by simp [Edit.start, Edit.stop]) (.inl (by simpa [Edit.start] using htext))
  have hgap := @byOffset_append gap text []
    [.insertBefore 0 opening, .insertAfter (Text.width text) closing] (by simp) (.inl (by simp))
  simp only [List.nil_append, List.append_nil, List.map_cons, List.map_nil, Edit.shift,
    Nat.add_zero, List.cons_append, byOffset_nil] at hback hgap
  rw [Text.width_append, hgap, hback, hfront, hclosing]

/-- What follows goes on behind it, if nothing there belongs to what stands in front. -/
theorem byOffset_enclosed_append (gap : List Char) {text : List Char} (htext : 0 < Text.width text)
    (back : List Char) (opening closing : String) {F : List Edit}
    (hafter : ∀ pos inserted, .insertAfter pos inserted ∈ F → 0 < pos) :
    byOffset (gap ++ text ++ back)
      ([.insertBefore (Text.width gap) opening,
        .insertAfter (Text.width (gap ++ text)) closing] ++
          F.map (Edit.shift (Text.width (gap ++ text)))) =
      gap ++ (opening.toList ++ text ++ closing.toList) ++ byOffset back F := by
  have hwidth := Text.width_append gap text
  rw [byOffset_append_of_meet, byOffset_enclosed gap htext]
  · simp [Edit.start, Edit.stop]
  · rw [addedAt_append]
    · rw [← addedAt_shift (Text.width (gap ++ text)) F 0, Nat.add_zero]
    · simp [replacement?]
    · have hfar : Text.width gap ≠ Text.width (gap ++ text) := by omega
      simp only [beforeAt, List.flatMap_cons, List.flatMap_nil, if_neg hfar, List.append_nil]
    · rw [afterAt, List.flatMap_eq_nil_iff]
      intro e he
      obtain ⟨f, hf, rfl⟩ := List.mem_map.mp he
      cases f with
      | insertAfter pos inserted =>
        have hpos := hafter pos inserted hf
        exact if_neg (by omega)
      | _ => rfl

theorem isBoundary_piece {front text back : List Char} {p : Nat}
    (h : Text.isBoundary (Text.width front + p) (front ++ text ++ back) = true)
    (hp : p ≤ Text.width text) : Text.isBoundary p text = true := by
  obtain ⟨c, d, hcd, hc⟩ := Text.isBoundary_iff.mp h
  rw [List.append_assoc] at hcd
  obtain ⟨e, rfl, he⟩ := Text.append_split_of_width_le hcd (by omega)
  rw [Text.width_append] at hc
  obtain ⟨f, hf, _⟩ := Text.append_split_of_width_le he.symm (by omega)
  exact Text.isBoundary_iff.mpr ⟨e, f, hf, by omega⟩

theorem insertPos?_shift (n : Nat) (e : Edit) :
    insertPos? (e.shift n) = (insertPos? e).map (n + ·) := by
  cases e <;> rfl

/-- Edits of a piece that can be applied in the whole text can be applied to the piece. -/
theorem placed_piece {front text back : List Char} {edits : List Edit}
    (hplaced : Placed (front ++ text ++ back) edits)
    (hsub : (E.map (Edit.shift (Text.width front))).Sublist edits)
    (hwithin : ∀ e ∈ E, e.stop ≤ Text.width text) : Placed text E := by
  have hmem : ∀ e ∈ E, e.shift (Text.width front) ∈ edits := fun e he =>
    hsub.subset (List.mem_map_of_mem he)
  have hordered : ∀ e ∈ E, e.start ≤ e.stop := by
    intro e he
    have h := hplaced.ordered _ (hmem e he)
    rw [(Edit.shift_ends _ e).1, (Edit.shift_ends _ e).2] at h
    omega
  refine ⟨hordered, ?_, ?_, ?_, ?_⟩
  · intro e he
    have h := hplaced.start_boundary _ (hmem e he)
    rw [(Edit.shift_ends _ e).1] at h
    exact isBoundary_piece h (Nat.le_trans (hordered e he) (hwithin e he))
  · intro e he
    have h := hplaced.stop_boundary _ (hmem e he)
    rw [(Edit.shift_ends _ e).2] at h
    exact isBoundary_piece h (hwithin e he)
  · refine (List.pairwise_map.mp (hplaced.apart.sublist hsub)).imp ?_
    intro e f hef r hr q hq
    have h := hef (r.shift (Text.width front)) (by rw [replacement?_shift, hr]; rfl)
      (q.shift (Text.width front)) (by rw [replacement?_shift, hq]; rfl)
    simp only [Replacement.shift] at h
    omega
  · intro e he f hf pos hpos r hr
    have h := hplaced.clear _ (hmem e he) _ (hmem f hf) (Text.width front + pos)
      (by rw [insertPos?_shift, hpos]; rfl) (r.shift (Text.width front))
      (by rw [replacement?_shift, hr]; rfl)
    simp only [Replacement.shift] at h
    omega

end Seams

end Splice

end RefSugar

import RefSugar.Document.Region
import RefSugar.Proofs.Offsets

/-! Where the script regions of a document lie: each is a piece of the document between two
boundaries, and each ends in front of the next. -/
namespace RefSugar.Document

open Text

/-- The mark stands between the two parts. -/
theorem splitAtFirst_eq_append {mark cs front behind : List Char}
    (h : splitAtFirst mark cs = some (front, behind)) : cs = front ++ mark ++ behind := by
  induction cs generalizing front behind with
  | nil => simp [splitAtFirst] at h
  | cons c cs ih =>
    rw [splitAtFirst] at h
    split at h
    · rename_i hprefix
      simp only [Option.some.injEq, Prod.mk.injEq] at h
      obtain ⟨rfl, rfl⟩ := h
      obtain ⟨rest, hrest⟩ := List.isPrefixOf_iff_prefix.mp hprefix
      simp [← hrest]
    · obtain ⟨⟨front', behind'⟩, hsplit, heq⟩ := Option.map_eq_some_iff.mp h
      simp only [Prod.mk.injEq] at heq
      obtain ⟨rfl, rfl⟩ := heq
      rw [ih hsplit]
      simp

theorem startsScript_prefix {cs : List Char} (h : startsScript cs = true) :
    ∃ rest, cs = openTag ++ rest := by
  simp only [startsScript, Bool.and_eq_true] at h
  obtain ⟨rest, hrest⟩ := List.isPrefixOf_iff_prefix.mp h.1
  exact ⟨rest, hrest.symm⟩

/-- The region is a piece of the document, in front of a closing tag. -/
def Region.IsPiece (source : List Char) (r : Region) : Prop :=
  ∃ a body b, source = a ++ body ++ b ∧ body ≠ [] ∧ closeTag <+: b ∧ width a = r.start ∧
    width a + width body = r.stop

/-- Pieces of the document behind an offset, each of which ends in front of the next. -/
def PiecesFrom (source : List Char) (pos : Nat) (regions : List Region) : Prop :=
  (∀ r ∈ regions, pos < r.start ∧ r.IsPiece source) ∧ regions.Pairwise fun r q => r.stop < q.start

section PiecesFrom

variable {source : List Char} {pos stop : Nat} {regions : List Region}

theorem PiecesFrom.nil : PiecesFrom source pos [] :=
  ⟨by simp, .nil⟩

theorem PiecesFrom.mono (h : PiecesFrom source stop regions) (hpos : pos ≤ stop) :
    PiecesFrom source pos regions :=
  ⟨fun r hr => ⟨Nat.lt_of_le_of_lt hpos (h.1 r hr).1, (h.1 r hr).2⟩, h.2⟩

theorem PiecesFrom.cons {r : Region} (h : PiecesFrom source stop regions) (hpiece : r.IsPiece source)
    (hpos : pos < r.start) (hstop : r.stop ≤ stop) (hle : pos ≤ stop) :
    PiecesFrom source pos (r :: regions) :=
  ⟨List.forall_mem_cons.mpr ⟨⟨hpos, hpiece⟩, (h.mono hle).1⟩,
    List.pairwise_cons.mpr ⟨fun q hq => Nat.lt_of_le_of_lt hstop (h.1 q hq).1, h.2⟩⟩

end PiecesFrom

/-- The regions behind what has been passed are pieces of the document. -/
theorem regionsFrom_pieces {source : List Char} (fuel : Nat) (front text : List Char)
    (hsource : source = front ++ text) :
    PiecesFrom source (width front) (regionsFrom fuel (width front) text) := by
  -- by induction on the steps; `front` is what has been passed
  induction fuel generalizing front text with
  | zero => exact .nil
  | succ fuel ih =>
    have skip (passed rest : List Char) (htext : text = passed ++ rest) (pos : Nat)
        (hpos : pos = width front + width passed) :
        PiecesFrom source pos (regionsFrom fuel pos rest) := by
      have h := ih (front ++ passed) rest (by simp [hsource, htext])
      rwa [width_append, ← hpos] at h
    cases text with
    | nil => exact .nil
    | cons c cs =>
      rw [regionsFrom]
      dsimp only
      split
      · -- a comment is passed as a whole
        split
        · exact .nil
        · rename_i inside behind hcomment
          have htext := splitAtFirst_eq_append hcomment
          have hmark : width "-->".toList = 3 := rfl
          exact (skip (inside ++ "-->".toList) behind htext (width front + width inside + 3)
            (by rw [width_append]; omega)).mono (by omega)
      · split
        · rename_i hscript
          obtain ⟨rest, hrest⟩ := startsScript_prefix hscript
          have hopen : width openTag = 7 := rfl
          have hdrop : (c :: cs).drop openTag.length = rest := by rw [hrest, List.drop_left]
          rw [hdrop]
          split
          · exact .nil
          · rename_i attrs content htag
            have hcontent := splitAtFirst_eq_append htag
            have hwidth : width ['>'] = 1 := rfl
            split
            · exact (skip (openTag ++ attrs ++ ['>']) content (by rw [hrest, hcontent]; simp)
                (width front + 8 + width attrs) (by simp only [width_append]; omega)).mono (by omega)
            · split
              · exact .nil
              · rename_i body behind hbody
                have htext := splitAtFirst_eq_append hbody
                have hclose : width closeTag = 9 := rfl
                have hmore := skip (openTag ++ attrs ++ ['>'] ++ body ++ closeTag) behind
                  (by rw [hrest, hcontent, htext]; simp)
                  (width front + 8 + width attrs + width body + 9)
                  (by simp only [width_append]; omega)
                -- an empty script is passed; any other is a region in front of those to come
                split
                · exact hmore.mono (by omega)
                · rename_i hfilled
                  refine hmore.cons ⟨front ++ openTag ++ attrs ++ ['>'], body, closeTag ++ behind, ?_,
                    by simpa using hfilled, List.prefix_append _ _, ?_, ?_⟩ ?_ ?_ (by omega)
                  · rw [hsource, hrest, hcontent, htext]
                    simp
                  all_goals
                    simp only [width_append]
                    omega
        · exact (skip [c] cs rfl (width front + c.utf8Size) (by simp)).mono (by omega)

/-- The scripts of a component are pieces of it with text in between. -/
theorem scriptRegions_pieces (source : List Char) :
    (∀ r ∈ scriptRegions source, 0 < r.start ∧ r.IsPiece source) ∧
      (scriptRegions source).Pairwise fun r q => r.stop < q.start :=
  regionsFrom_pieces source.length [] source rfl

/-- Every region of a file is a piece of it, and each ends in front of the next. -/
theorem regionsOf?_pieces {filename : String} {source : List Char} {regions : List Region}
    (h : regionsOf? filename source = some regions) :
    (∀ r ∈ regions, ∃ a body b, source = a ++ body ++ b ∧ width a = r.start ∧
      width a + width body = r.stop) ∧ regions.Pairwise fun r q => r.stop ≤ q.start := by
  unfold regionsOf? at h
  split at h
  · have hpieces := scriptRegions_pieces source
    rw [Option.some.injEq] at h
    subst h
    refine ⟨fun r hr => ?_, hpieces.2.imp Nat.le_of_lt⟩
    obtain ⟨a, body, b, hsource, _, _, hstart, hstop⟩ := (hpieces.1 r hr).2
    exact ⟨a, body, b, hsource, hstart, hstop⟩
  · obtain ⟨dialect, _, rfl⟩ := Option.map_eq_some_iff.mp h
    refine ⟨fun r hr => ?_, List.pairwise_singleton _ _⟩
    rw [List.mem_singleton] at hr
    subst hr
    exact ⟨[], source, [], by simp, rfl, by simp [Region.whole]⟩

/-- Nothing stands behind a region of a file, or a closing tag. -/
theorem regionsOf?_closed {filename : String} {source : List Char} {regions : List Region}
    (h : regionsOf? filename source = some regions) {r : Region} (hr : r ∈ regions) :
    ∃ a body b, source = a ++ body ++ b ∧ (b = [] ∨ closeTag <+: b) ∧ width a = r.start ∧
      width a + width body = r.stop := by
  unfold regionsOf? at h
  split at h
  · rw [Option.some.injEq] at h
    subst h
    obtain ⟨a, body, b, hsource, _, hclose, hstart, hstop⟩ :=
      ((scriptRegions_pieces source).1 r hr).2
    exact ⟨a, body, b, hsource, .inr hclose, hstart, hstop⟩
  · obtain ⟨dialect, _, rfl⟩ := Option.map_eq_some_iff.mp h
    rw [List.mem_singleton] at hr
    subst hr
    exact ⟨[], source, [], by simp, .inl rfl, rfl, by simp [Region.whole]⟩

end RefSugar.Document

import Mathlib
import RefSugar.Proofs.Conflicts
import RefSugar.Proofs.ReadScripts
import RefSugar.Proofs.Weaving

/-! What becomes of a component document: the text between its scripts stays, and each script becomes
what its own edits make of it. -/
namespace RefSugar

open Syntax Document

variable {filename : String} {p : Progress} {regions : List Region}

namespace Document

/-- A document from an offset on, with other texts in its regions. -/
def fill (source : List Char) : Nat → List Region → List (List Char) → List Char
  | done, r :: regions, text :: texts =>
    textUnder source ⟨done, r.start⟩ ++ text ++ fill source r.stop regions texts
  | done, _, _ => textUnder source ⟨done, Text.width source⟩

def Region.HasText (source : List Char) (r : Region) (text : List Char) : Prop :=
  ∃ a b, source = a ++ text ++ b ∧ Text.width a = r.start ∧ r.start + Text.width text = r.stop

theorem Region.IsPiece.hasText {source : List Char} {r : Region} (h : r.IsPiece source) :
    r.HasText source (textUnder source ⟨r.start, r.stop⟩) ∧
      Text.slice? r.start r.stop source ≠ none := by
  obtain ⟨a, text, b, hsource, _, _, hstart, hstop⟩ := h
  have hslice := Text.slice?_eq_some_iff.mpr ⟨a, b, hsource, hstart, hstop⟩
  have htext : textUnder source ⟨r.start, r.stop⟩ = text := by simp [textUnder, hslice]
  refine ⟨⟨a, b, htext.symm ▸ hsource, hstart, by rw [htext, ← hstart, hstop]⟩, by simp [hslice]⟩

end Document

namespace Transform

/-- A script and edits of its own, whose positions count from its start. -/
structure Patch where
  text : List Char
  edits : List Edit

/-- What a walk makes of the text of a region, if it holds a sigil and can be read. -/
def walk? (o : Options) (session : Session) (dialect : Dialect) (text : List Char) :
    Option Walk.Outcome :=
  if Sigil.containsSigil text then
    (parseModule dialect text).toOption.map (Walk.script o session 0 text)
  else none

/-- The patches of regions one after another. Each region goes on with the session of those in front
of it. -/
def patches (o : Options) (source : List Char) : Session → List Region → List Patch
  | _, [] => []
  | session, r :: regions =>
    let text := textUnder source ⟨r.start, r.stop⟩
    match walk? o session r.dialect text with
    | none => ⟨text, []⟩ :: patches o source session regions
    | some walked => ⟨text, walked.edits.edits⟩ :: patches o source walked.session regions

def addBehindLast (text : String) : List Patch → List Patch
  | [] => []
  | u :: us =>
    if us.any (!·.edits.isEmpty) then u :: addBehindLast text us
    else if u.edits.isEmpty then u :: us
    else { u with edits := u.edits ++ [.insertAfter (Text.width u.text) text] } :: us

/-- The patches of all scripts of a document, with the declarations if they are asked for. -/
def allPatches (o : Options) (source : List Char) (regions : List Region) : List Patch :=
  let us := patches o source {} regions
  if o.declarations then addBehindLast ("\n" ++ primitiveDeclarations o) us else us

def placedEdits : List Region → List Patch → List Edit
  | r :: regions, u :: us => u.edits.map (Edit.shift r.start) ++ placedEdits regions us
  | _, _ => []

/-- The edit lies inside a text, and replaces something if it replaces. -/
structure FitsIn (width : Nat) (e : Edit) : Prop where
  ordered : e.start ≤ e.stop
  within : e.stop ≤ width
  filled : ∀ r, Splice.replacement? e = some r → r.start < r.stop

def Patch.Sound (u : Patch) : Prop :=
  ∀ e ∈ u.edits, FitsIn (Text.width u.text) e

section Patches

variable {o : Options} {source : List Char}

/-- The edits of a walk lie inside the text that was walked. -/
theorem sound_walk {session : Session} {dialect : Dialect} {text : List Char} {walked : Walk.Outcome}
    (h : walk? o session dialect text = some walked) : Patch.Sound ⟨text, walked.edits.edits⟩ := by
  unfold walk? at h
  split at h
  · obtain ⟨stmts, hparse, rfl⟩ := Option.map_eq_some_iff.mp h
    have hread : parseModule dialect text = .ok stmts := by
      cases hresult : parseModule dialect text with
      | error f => simp [hresult, Except.toOption] at hparse
      | ok found => simpa [hresult, Except.toOption] using hparse
    have hwithin := @Walk.script_within o session 0 (Text.width text) text stmts
      (Walk.parseModule_events_within hread)
    have hfilled := Splice.rangesFilled_of_ranges (@script_ranges_filled o session 0 text stmts)
    intro e he
    exact ⟨(hwithin e he).2.1, by simpa using (hwithin e he).2.2, hfilled e he⟩
  · cases h

/-- The patches of regions have their texts, and edit nothing outside. -/
theorem patches_sound (session : Session) (regions : List Region) :
    (patches o source session regions).map Patch.text =
        regions.map (fun r => textUnder source ⟨r.start, r.stop⟩) ∧
      ∀ u ∈ patches o source session regions, u.Sound := by
  induction regions generalizing session with
  | nil => simp [patches]
  | cons r regions ih =>
    rw [patches]
    cases hwalk : walk? o session r.dialect (textUnder source ⟨r.start, r.stop⟩) with
    | none =>
      obtain ⟨htexts, hsound⟩ := ih session
      exact ⟨by simp [htexts], List.forall_mem_cons.mpr ⟨by simp [Patch.Sound], hsound⟩⟩
    | some walked =>
      obtain ⟨htexts, hsound⟩ := ih walked.session
      exact ⟨by simp [htexts], List.forall_mem_cons.mpr ⟨sound_walk hwalk, hsound⟩⟩

/-- The declarations leave the texts alone and the patches sound. -/
theorem addBehindLast_sound (text : String) (us : List Patch) (h : ∀ u ∈ us, u.Sound) :
    (addBehindLast text us).map Patch.text = us.map Patch.text ∧
      ∀ u ∈ addBehindLast text us, u.Sound := by
  induction us with
  | nil => simp [addBehindLast]
  | cons u us ih =>
    obtain ⟨hu, hus⟩ := List.forall_mem_cons.mp h
    obtain ⟨htexts, hsound⟩ := ih hus
    rw [addBehindLast]
    split
    · exact ⟨by simp [htexts], List.forall_mem_cons.mpr ⟨hu, hsound⟩⟩
    · split
      · exact ⟨rfl, h⟩
      · refine ⟨rfl, List.forall_mem_cons.mpr ⟨?_, hus⟩⟩
        exact List.forall_mem_append.mpr
          ⟨hu, List.forall_mem_singleton.mpr ⟨Nat.le_refl _, Nat.le_refl _, by simp [Splice.replacement?]⟩⟩

def lastStop? : List Region → List Patch → Option Nat
  | r :: regions, u :: us =>
    (lastStop? regions us).or (if u.edits.isEmpty then none else some r.stop)
  | _, _ => none

/-- A region goes on with what a walk makes of its text. -/
theorem region_walk {r : Region} {p' : Progress} (hslice : Text.slice? r.start r.stop source ≠ none)
    (h : region o filename source p r = .ok p') :
    match walk? o p.session r.dialect (textUnder source ⟨r.start, r.stop⟩) with
    | none => p' = p
    | some walked =>
      p'.session = walked.session ∧
        p'.edits.edits = p.edits.edits ++ walked.edits.edits.map (Edit.shift r.start) ∧
        p'.lastChanged = if walked.edits.isEmpty then p.lastChanged else some r.stop := by
  obtain ⟨text, htext⟩ := Option.ne_none_iff_exists'.mp hslice
  have hunder : textUnder source ⟨r.start, r.stop⟩ = text := by simp [textUnder, htext]
  unfold region at h
  rw [htext] at h
  rw [hunder]
  unfold walk?
  by_cases hsigil : Sigil.containsSigil text = true
  · cases hparse : parseModule r.dialect text with
    | error fault => simp [hsigil, hparse] at h
    | ok stmts =>
      have hmoved := Walk.script_moveTo o p.session r.start text stmts
      simp only [hsigil, hparse, Bool.not_true, Bool.false_eq_true, if_false, Except.ok.injEq] at h
      subst h
      simp only [hmoved, hsigil, if_true, Except.toOption, Option.map_some]
      refine ⟨rfl, rfl, ?_⟩
      simp [Walk.Outcome.moveTo, EditSet.shift, EditSet.isEmpty]
  · have heq : p' = p := by simpa [hsigil] using h.symm
    simpa [hsigil] using heq

/-- What the regions of a document come to is what their patches tell. -/
theorem foldlM_region {p' : Progress}
    (hslices : ∀ r ∈ regions, Text.slice? r.start r.stop source ≠ none)
    (h : regions.foldlM (region o filename source) p = .ok p') :
    p'.edits.edits = p.edits.edits ++ placedEdits regions (patches o source p.session regions) ∧
      p'.lastChanged = (lastStop? regions (patches o source p.session regions)).or p.lastChanged := by
  induction regions generalizing p with
  | nil =>
    obtain rfl : p = p' := by simpa [pure, Except.pure] using h
    simp [placedEdits, lastStop?]
  | cons r regions ih =>
    obtain ⟨hslice, hslices⟩ := List.forall_mem_cons.mp hslices
    rw [List.foldlM_cons] at h
    cases hregion : region o filename source p r with
    | error e => simp [hregion, bind, Except.bind] at h
    | ok q =>
      rw [hregion] at h
      obtain ⟨hedits, hlast⟩ := ih hslices h
      have hwalk := region_walk hslice hregion
      rw [patches]
      split at hwalk
      · subst hwalk
        simp [placedEdits, lastStop?, hedits, hlast]
      · rename_i walked _
        obtain ⟨hsession, hadded, hstop⟩ := hwalk
        rw [hsession] at hedits hlast
        refine ⟨by simp [placedEdits, hedits, hadded], ?_⟩
        rw [hlast, hstop, lastStop?, EditSet.isEmpty, Option.or_assoc]
        congr 1
        split <;> simp

theorem lastStop?_eq_none {regions : List Region} {us : List Patch}
    (h : us.any (!·.edits.isEmpty) = false) :
    lastStop? regions us = none ∧ placedEdits regions us = [] := by
  induction us generalizing regions with
  | nil => cases regions <;> simp [lastStop?, placedEdits]
  | cons u us ih =>
    cases regions with
    | nil => simp [lastStop?, placedEdits]
    | cons r regions =>
      simp only [List.any_cons, Bool.or_eq_false_iff, Bool.not_eq_false', List.isEmpty_iff] at h
      obtain ⟨hlast, hedits⟩ := @ih regions h.2
      simp [lastStop?, placedEdits, hlast, hedits, h.1]

/-- If some script changes, one of them is the last to do so. -/
theorem lastStop?_ne_none {us : List Patch}
    (hlength : us.length = regions.length) (h : us.any (!·.edits.isEmpty) = true) :
    lastStop? regions us ≠ none := by
  induction us generalizing regions with
  | nil => simp at h
  | cons u us ih =>
    cases regions with
    | nil => simp at hlength
    | cons r regions =>
      rw [lastStop?]
      by_cases hlater : us.any (!·.edits.isEmpty) = true
      · have hlast := ih (by simpa using hlength) hlater
        cases hstop : lastStop? regions us with
        | none => exact absurd hstop hlast
        | some stop => simp
      · have hu : u.edits ≠ [] := by simpa [hlater] using h
        simp [hu]

/-- Text behind the last changed script is an edit where the region of the script ends. -/
theorem placedEdits_addBehindLast (text : String) {us : List Patch}
    (hwidth : List.Forall₂ (fun r u => r.start + Text.width u.text = r.stop) regions us) :
    placedEdits regions (addBehindLast text us) =
      placedEdits regions us ++
        (lastStop? regions us).toList.map fun stop => .insertAfter stop text := by
  induction hwidth with
  | nil => simp [placedEdits, lastStop?]
  | @cons r u regions us hu hrest ih =>
    rw [addBehindLast]
    by_cases hlater : us.any (!·.edits.isEmpty) = true
    · obtain ⟨stop, hstop⟩ := Option.ne_none_iff_exists'.mp (lastStop?_ne_none hrest.length_eq.symm hlater)
      rw [if_pos hlater, placedEdits, ih, placedEdits, lastStop?, hstop]
      simp
    · obtain ⟨hlast, hedits⟩ := @lastStop?_eq_none regions us (by simpa using hlater)
      rw [if_neg hlater]
      by_cases hempty : u.edits.isEmpty = true
      · simp [hempty, placedEdits, lastStop?, hlast]
      · rw [if_neg hempty]
        simp [placedEdits, lastStop?, hlast, hedits, hempty, Edit.shift, hu]

/-- Behind `front`, patches that lie apart make of a document what each makes of its text. -/
theorem byOffset_placedEdits {us : List Patch} {front rest : List Char}
    (hsource : source = front ++ rest) (hsound : ∀ u ∈ us, u.Sound)
    (hpieces : List.Forall₂ (fun r u => Region.HasText source r u.text) regions us)
    (hbehind : ∀ r ∈ regions, Text.width front < r.start)
    (hapart : regions.Pairwise fun r q => r.stop < q.start) :
    ∃ moved : List Edit, placedEdits regions us = moved.map (Edit.shift (Text.width front)) ∧
      (∀ e ∈ moved, 0 < e.start) ∧
      Splice.byOffset rest moved = fill source (Text.width front) regions
        (us.map fun u => Splice.byOffset u.text u.edits) := by
  -- by induction on the regions; `front` is the document up to the end of the last one
  induction hpieces generalizing front rest with
  | nil =>
    refine ⟨[], by simp [placedEdits], by simp, ?_⟩
    have hslice : Text.slice? (Text.width front) (Text.width source) source = some rest :=
      Text.slice?_eq_some_iff.mpr ⟨front, [], by simp [hsource], rfl, by simp [hsource]⟩
    simp [fill, textUnder, hslice, Splice.byOffset_nil]
  | @cons r u regions us hr hrest ih =>
    obtain ⟨hu, hus⟩ := List.forall_mem_cons.mp hsound
    obtain ⟨hfirst, hbehind⟩ := List.forall_mem_cons.mp hbehind
    obtain ⟨hnext, hapart⟩ := List.pairwise_cons.mp hapart
    obtain ⟨a, b, hsplit, hstart, hstop⟩ := hr
    obtain ⟨gap, rfl, hgap⟩ : ∃ gap, a = front ++ gap ∧ rest = gap ++ (u.text ++ b) := by
      refine Text.append_split_of_width_le ?_ (by omega)
      rw [← hsource, hsplit, List.append_assoc]
    rw [Text.width_append] at hstart
    obtain ⟨moved, hmoved, hpositive, hcode⟩ := @ih (front ++ gap ++ u.text) b
      (by rw [hsplit]) hus (by
        intro q hq
        have := hnext q hq
        simp only [Text.width_append]
        omega) hapart
    have hwidth : Text.width (front ++ gap ++ u.text) = r.stop := by
      simp only [Text.width_append]
      omega
    rw [hwidth] at hmoved hcode
    refine ⟨(u.edits ++ moved.map (Edit.shift (Text.width u.text))).map (Edit.shift (Text.width gap)),
      ?_, ?_, ?_⟩
    · rw [placedEdits, hmoved, List.map_map, List.map_append, List.map_map, ← hstart, ← hstop, ← hstart]
      congr 1
      · exact List.map_congr_left fun e _ => (Edit.shift_shift _ _ e).symm
      · refine List.map_congr_left fun e _ => ?_
        simp [Function.comp, Edit.shift_shift, Nat.add_assoc]
    · intro e he
      obtain ⟨f, _, rfl⟩ := List.mem_map.mp he
      rw [(Edit.shift_ends _ f).1]
      omega
    · have hslice : Text.slice? (Text.width front) r.start source = some gap :=
        Text.slice?_eq_some_iff.mpr ⟨front, u.text ++ b, by simp [hsplit], rfl, hstart⟩
      have hfront := @Splice.byOffset_append gap (u.text ++ b) []
        (u.edits ++ moved.map (Edit.shift (Text.width u.text))) (by simp) (.inl (by simp))
      have hback := @Splice.byOffset_append u.text b u.edits moved
        (fun e he => ⟨(hu e he).ordered, (hu e he).within⟩) (.inr hpositive)
      rw [List.nil_append] at hfront
      rw [hgap, hfront, hback, hcode, Splice.byOffset_nil, List.map_cons, fill]
      simp [textUnder, hslice]

theorem forall₂_of_map_eq {α β γ : Type} {f : α → γ} {g : β → γ} {Q : α → γ → Prop} {l : List α}
    {l' : List β} (h : l'.map g = l.map f) (hQ : ∀ a ∈ l, Q a (f a)) :
    List.Forall₂ (fun a b => Q a (g b)) l l' := by
  induction l generalizing l' with
  | nil =>
    obtain rfl : l' = [] := by simpa using h
    exact .nil
  | cons a l ih =>
    obtain ⟨hfirst, hrest⟩ := List.forall_mem_cons.mp hQ
    cases l' with
    | nil => simp at h
    | cons b l' =>
      obtain ⟨hb, h⟩ : g b = f a ∧ l'.map g = l.map f := by simpa using h
      exact .cons (hb ▸ hfirst) (ih h hrest)

/-- Without any edits the regions keep their texts. -/
theorem fill_texts (hpieces : ∀ r ∈ regions, r.HasText source (textUnder source ⟨r.start, r.stop⟩))
    (hbehind : ∀ r ∈ regions, 0 < r.start) (hapart : regions.Pairwise fun r q => r.stop < q.start) :
    fill source 0 regions (regions.map fun r => textUnder source ⟨r.start, r.stop⟩) = source := by
  let us : List Patch := regions.map fun r => ⟨textUnder source ⟨r.start, r.stop⟩, []⟩
  have hpatches : List.Forall₂ (fun r u => r.HasText source u.text) regions us :=
    forall₂_of_map_eq (g := Patch.text) (by simp [us]) hpieces
  have hnone : us.any (!·.edits.isEmpty) = false := by simp [us]
  have hsound : ∀ u ∈ us, u.Sound := by
    intro u hu
    obtain ⟨r, _, rfl⟩ := List.mem_map.mp hu
    simp [Patch.Sound]
  have hcodes : (us.map fun u => Splice.byOffset u.text u.edits) =
      regions.map fun r => textUnder source ⟨r.start, r.stop⟩ := by
    simp [us, Splice.byOffset_nil]
  obtain ⟨moved, hmoved, _, hcode⟩ := byOffset_placedEdits (List.nil_append source).symm hsound
    hpatches hbehind hapart
  rw [(lastStop?_eq_none hnone).2] at hmoved
  obtain rfl : moved = [] := by simpa using hmoved.symm
  rw [Splice.byOffset_nil, hcodes] at hcode
  exact hcode.symm

/-- A result has the code that its edits make offset by offset. -/
theorem splice_code {edits : EditSet} {t : Transformed}
    (hfilled : Splice.RangesFilled edits.edits) (h : splice o filename source edits = .ok t) :
    Splice.Placed source edits.edits ∧ t.code = Splice.byOffset source edits.edits := by
  unfold splice at h
  split at h
  · rename_i hempty
    obtain rfl : edits = {} := by
      obtain ⟨edits⟩ := edits
      simpa [EditSet.isEmpty] using hempty
    obtain rfl := Except.ok.inj h
    exact ⟨⟨by simp, by simp, by simp, .nil, by simp⟩, (Splice.byOffset_nil source).symm⟩
  · split at h
    · cases h
    · rename_i spliced happly
      have hplaced : Splice.Placed source edits.edits := by
        refine (Splice.fault_eq_none_iff hfilled).mp ?_
        unfold EditSet.apply at happly
        split at happly
        · cases happly
        · assumption
      obtain ⟨out, hout, hcode⟩ := Splice.apply_of_placed hfilled hplaced
      obtain rfl : out = spliced := Except.ok.inj (hout.symm.trans happly)
      obtain rfl := Except.ok.inj h
      exact ⟨hplaced, hcode⟩

/-- Patches of separate pieces can be applied one by one if they can be applied together. -/
theorem apply_patches {us : List Patch} {edits : List Edit} (hsound : ∀ u ∈ us, u.Sound)
    (hpieces : List.Forall₂ (fun r u => Region.HasText source r u.text) regions us)
    (hplaced : Splice.Placed source edits) (hsub : (placedEdits regions us).Sublist edits) :
    ∃ outs, List.Forall₂ (fun u out => EditSet.apply ⟨u.edits⟩ u.text = .ok out) us outs ∧
      outs.map Spliced.code = us.map fun u => Splice.byOffset u.text u.edits := by
  induction hpieces with
  | nil => exact ⟨[], .nil, rfl⟩
  | @cons r u regions us hr _ ih =>
    obtain ⟨hu, hus⟩ := List.forall_mem_cons.mp hsound
    obtain ⟨a, b, rfl, hstart, _⟩ := hr
    rw [placedEdits, ← hstart] at hsub
    obtain ⟨outs, hall, hcodes⟩ := ih hus ((List.sublist_append_right _ _).trans hsub)
    have hpiece : Splice.Placed u.text u.edits :=
      Splice.placed_piece hplaced ((List.sublist_append_left _ _).trans hsub)
        fun e he => (hu e he).within
    obtain ⟨out, hout, hcode⟩ := Splice.apply_of_placed (fun e he => (hu e he).filled) hpiece
    exact ⟨out :: outs, .cons hout hall, by simp [hcode, hcodes]⟩

/-- The edits of a document are those of its patches. -/
theorem finalEdits_patches (hslices : ∀ r ∈ regions, Text.slice? r.start r.stop source ≠ none)
    (hwidth : List.Forall₂ (fun r u => r.start + Text.width u.text = r.stop) regions
      (patches o source {} regions))
    (hfold : regions.foldlM (region o filename source) {} = .ok p) :
    (p.finalEdits o).edits = placedEdits regions (allPatches o source regions) := by
  obtain ⟨hedits, hlast⟩ := foldlM_region hslices hfold
  rw [List.nil_append] at hedits
  rw [Option.or_none] at hlast
  rw [finalEdits_eq, allPatches]
  by_cases hdeclared : o.declarations = true
  · rw [if_pos hdeclared, if_pos hdeclared, placedEdits_addBehindLast _ hwidth, ← hlast, ← hedits]
  · rw [if_neg hdeclared, if_neg hdeclared, List.append_nil, hedits]

theorem allPatches_sound (o : Options) (source : List Char) (regions : List Region) :
    (allPatches o source regions).map Patch.text =
        regions.map (fun r => textUnder source ⟨r.start, r.stop⟩) ∧
      ∀ u ∈ allPatches o source regions, u.Sound := by
  obtain ⟨htexts, hsound⟩ := @patches_sound o source {} regions
  unfold allPatches
  split
  · obtain ⟨hsame, hsound'⟩ := addBehindLast_sound ("\n" ++ primitiveDeclarations o) _ hsound
    exact ⟨hsame.trans htexts, hsound'⟩
  · exact ⟨htexts, hsound⟩

/-- Moving sound patches to their regions leaves their ranges filled. -/
theorem placedEdits_filled {us : List Patch} (h : ∀ u ∈ us, u.Sound) :
    Splice.RangesFilled (placedEdits regions us) := by
  induction us generalizing regions with
  | nil => cases regions <;> simp [placedEdits, Splice.RangesFilled]
  | cons u us ih =>
    obtain ⟨hu, hus⟩ := List.forall_mem_cons.mp h
    cases regions with
    | nil => simp [placedEdits, Splice.RangesFilled]
    | cons r regions =>
      refine List.forall_mem_append.mpr ⟨?_, ih hus⟩
      intro e he q hq
      obtain ⟨f, hf, rfl⟩ := List.mem_map.mp he
      rw [Splice.replacement?_shift] at hq
      obtain ⟨found, hfound, rfl⟩ := Option.map_eq_some_iff.mp hq
      exact Nat.add_lt_add_left ((hu f hf).filled found hfound) r.start

/-- Each script of a component document becomes what its own edits make of it, and the text between
the scripts stays as it is. -/
theorem transformFile_fills_scripts {filename : String} {t : Transformed}
    (hcomponent : Dialect.isComponentPath filename = true)
    (h : transformFile o filename source = .ok t) :
    source = fill source 0 (scriptRegions source)
        ((scriptRegions source).map fun r => textUnder source ⟨r.start, r.stop⟩) ∧
      (allPatches o source (scriptRegions source)).map Patch.text =
        (scriptRegions source).map (fun r => textUnder source ⟨r.start, r.stop⟩) ∧
      ∃ outs : List Spliced,
        List.Forall₂ (fun u out => EditSet.apply ⟨u.edits⟩ u.text = .ok out)
          (allPatches o source (scriptRegions source)) outs ∧
        t.code = fill source 0 (scriptRegions source) (outs.map Spliced.code) := by
  have hregions : regionsOf? filename source = some (scriptRegions source) := by
    simp [regionsOf?, hcomponent]
  generalize hscripts : scriptRegions source = regions at hregions ⊢
  obtain ⟨hpieces, hapart⟩ := hscripts ▸ scriptRegions_pieces source
  have hpiece : ∀ r ∈ regions, r.HasText source (textUnder source ⟨r.start, r.stop⟩) :=
    fun r hr => (hpieces r hr).2.hasText.1
  obtain ⟨htexts, hsound⟩ := allPatches_sound o source regions
  have hplaces : List.Forall₂ (fun r u => r.HasText source u.text) regions
      (allPatches o source regions) := forall₂_of_map_eq htexts hpiece
  have hwidth : List.Forall₂ (fun r u => r.start + Text.width u.text = r.stop) regions
      (patches o source {} regions) :=
    (forall₂_of_map_eq (@patches_sound o source {} regions).1 hpiece).imp
      fun r u ⟨_, _, _, _, hstop⟩ => hstop
  refine ⟨?_, htexts, ?_⟩
  · exact (fill_texts hpiece (fun r hr => (hpieces r hr).1) hapart).symm
  · cases hfold : regions.foldlM (region o filename source) {} with
    | error e =>
      simp [transformFile, transformRegions, hregions, hfold, bind, Except.bind] at h
    | ok p =>
      rw [transformFile_eq hregions hfold] at h
      have hedits := finalEdits_patches (fun r hr => (hpieces r hr).2.hasText.2) hwidth hfold
      obtain ⟨result, hsplice, ht⟩ : ∃ result,
          splice o filename source (p.finalEdits o) = .ok result ∧ t.code = result.code := by
        cases hresult : splice o filename source (p.finalEdits o) with
        | error e => simp [hresult, Except.map] at h
        | ok result =>
          obtain rfl : _ = t := by simpa [hresult, Except.map] using h
          exact ⟨result, rfl, rfl⟩
      have hfilled : Splice.RangesFilled (p.finalEdits o).edits :=
        hedits ▸ placedEdits_filled hsound
      obtain ⟨hplaced, hcode⟩ := splice_code hfilled hsplice
      rw [hedits] at hplaced hcode
      obtain ⟨moved, hmoved, _, hfill⟩ := byOffset_placedEdits (List.nil_append source).symm hsound
        hplaces (fun r hr => (hpieces r hr).1) hapart
      obtain rfl : placedEdits regions (allPatches o source regions) = moved := by
        rw [hmoved, Text.width_nil, funext Edit.shift_zero, List.map_id']
      obtain ⟨outs, hall, hcodes⟩ := apply_patches hsound hplaces hplaced (List.Sublist.refl _)
      refine ⟨outs, hall, ?_⟩
      rw [ht, hcode, hcodes]
      exact hfill

end Patches

/-- A component with two scripts, both of which are edited, and a sigil between them that stays. -/
def twoScripts : List Char :=
  "<script>let a = $f()\na</script><p>$a</p><script>$$(b)</script>".toList

/-- Two scripts are filled, and the text between them stays. -/
theorem transformFile_fills_scripts_two : ∃ t,
    Dialect.isComponentPath "c.vue" = true ∧ transformFile {} "c.vue" twoScripts = .ok t ∧
    t.code = "<script>let a = f()\na.value</script><p>$a</p><script>(b)</script>".toList ∧
    ∃ outs : List Spliced,
      List.Forall₂ (fun u out => EditSet.apply ⟨u.edits⟩ u.text = .ok out)
        (allPatches {} twoScripts (scriptRegions twoScripts)) outs ∧
      t.code = fill twoScripts 0 (scriptRegions twoScripts) (outs.map Spliced.code) := by
  have hregions : regionsOf? "c.vue" twoScripts = some (scriptRegions twoScripts) := rfl
  obtain ⟨_, ht⟩ := @transformFile_of_edits {} "c.vue" twoScripts _
    [.remove 16 17, .insertAfter 22 ".value", .remove 48 50] rfl hregions (by decide +kernel)
  have happly : EditSet.apply ⟨[.remove 16 17, .insertAfter 22 ".value", .remove 48 50]⟩ twoScripts =
      .ok ⟨"<script>let a = f()\na.value</script><p>$a</p><script>(b)</script>".toList,
        [⟨0, 0, 0⟩, ⟨0, 16, 17⟩, ⟨1, 0, 21⟩, ⟨1, 7, 22⟩, ⟨1, 33, 50⟩]⟩ := by cbv
  simp only [splice, EditSet.isEmpty, List.isEmpty_cons, Bool.false_eq_true, if_false, happly,
    Except.map] at ht
  exact ⟨_, by decide, ht, rfl, (transformFile_fills_scripts (by decide) ht).2.2⟩

/-- What its edits make of a script may have fewer statements: without its callee, a call in
parentheses continues the line before. -/
theorem transformFile_joins_statements : ∃ t stmts joined,
    transformFile {} "t.ts" "a\n$$(b)".toList = .ok t ∧
    Syntax.parseModule .ts "a\n$$(b)".toList = .ok stmts ∧ stmts.length = 2 ∧
    Syntax.parseModule .ts t.code = .ok joined ∧ joined.length = 1 := by
  have hregions : regionsOf? "t.ts" "a\n$$(b)".toList = some [.whole "a\n$$(b)".toList .ts] := by
    decide +kernel
  obtain ⟨_, ht⟩ := @transformFile_of_edits {} "t.ts" "a\n$$(b)".toList _ [.remove 2 4] rfl hregions
    (by decide +kernel)
  have happly : EditSet.apply ⟨[.remove 2 4]⟩ "a\n$$(b)".toList =
      .ok ⟨"a\n(b)".toList, [⟨0, 0, 0⟩, ⟨1, 0, 4⟩]⟩ := by cbv
  simp only [splice, EditSet.isEmpty, List.isEmpty_cons, Bool.false_eq_true, if_false, happly,
    Except.map] at ht
  obtain ⟨stmts, hstmts, htwo⟩ := @exists_parse .ts "a\n$$(b)".toList
    (fun stmts => stmts.length == 2) (by decide +kernel)
  obtain ⟨joined, hjoined, hone⟩ := @exists_parse .ts "a\n(b)".toList
    (fun stmts => stmts.length == 1) (by decide +kernel)
  exact ⟨_, stmts, joined, ht, hstmts, eq_of_beq htwo, hjoined, eq_of_beq hone⟩

end Transform

end RefSugar

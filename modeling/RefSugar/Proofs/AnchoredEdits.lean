import Mathlib
import RefSugar.Proofs.Anchors

/-! Where the edits of a document stand. A value is appended behind a whole word, and what is taken
away are sigils, as long as no byte order mark is in front of a script and no sigil at the end of the
name of a function is written with an escape. Main statement: where those edits stand instead, and
when exactly something else than a sigil is taken away. -/
namespace RefSugar

open Syntax

theorem Text.withoutMark_split (text : List Char) : ∃ mark, text = mark ++ withoutMark text := by
  unfold withoutMark
  split
  · split
    · exact ⟨_, (List.singleton_append).symm⟩
    · exact ⟨[], rfl⟩
  · exact ⟨[], rfl⟩

namespace Transform

open Document (Region)

section Gathering

variable {o : Options} {filename : String} {source : List Char}

/-- A fold that has come to an end carries a property of what it has passed through. -/
theorem foldlM_ok_induct {ε α β : Type} {f : β → α → Except ε β} {motive : List α → β → Prop}
    {init last : β} (all : List α) (hinit : motive [] init)
    (hstep : ∀ done a b b', a ∈ all → motive done b → f b a = .ok b' → motive (done ++ [a]) b')
    (h : all.foldlM f init = .ok last) : motive all last := by
  suffices hrest : ∀ rest done b, all = done ++ rest → motive done b →
      rest.foldlM f b = .ok last → motive all last from hrest all [] init rfl hinit h
  intro rest
  induction rest with
  | nil =>
    intro done b hall hb hlast
    obtain rfl : b = last := by simpa [pure, Except.pure] using hlast
    rw [hall, List.append_nil]
    exact hb
  | cons a rest ih =>
    intro done b hall hb hlast
    rw [List.foldlM_cons] at hlast
    cases hnext : f b a with
    | error e => simp [hnext, bind, Except.bind] at hlast
    | ok b' =>
      rw [hnext] at hlast
      exact ih (done ++ [a]) b' (by simp [hall]) (hstep done a b b' (by simp [hall]) hb hnext) hlast

/-- The edit is one that a walk over the script comes to. -/
def Script.Issues (o : Options) (u : Script filename source) (e : Edit) : Prop :=
  ∃ session, e ∈ (Walk.script o session u.region.start u.text u.stmts).edits.edits

theorem Progress.after_edits {p : Progress} (u : Script filename source) {e : Edit}
    (he : e ∈ (p.after o u).edits.edits) : e ∈ p.edits.edits ∨ u.Issues o e := by
  rcases List.mem_append.mp he with he | he
  · exact .inl he
  · exact .inr ⟨p.session, he⟩

/-- The regions of a document have come to the edits of its scripts, and to no others. -/
theorem regions_gathered {regions : List Region} {p : Progress}
    (hregions : Document.regionsOf? filename source = some regions)
    (hfold : regions.foldlM (region o filename source) {} = .ok p) :
    p.Holds o filename source regions ∧
      ∀ e ∈ p.edits.edits, ∃ u : Script filename source, u.Issues o e := by
  refine @foldlM_ok_induct _ _ _ (region o filename source) (fun done p =>
    p.Holds o filename source done ∧
      ∀ e ∈ p.edits.edits, ∃ u : Script filename source, u.Issues o e) {} p regions ?_ ?_ hfold
  · exact ⟨⟨by simp, by simp⟩, by simp⟩
  · rintro done r p p' hr ⟨hholds, horigin⟩ hstep
    rcases @region_outcomes o filename source regions hregions r hr p with
      ⟨u, rfl, hwalked⟩ | ⟨hnone, hleft⟩ | ⟨text, fault, _, _, _, hfault⟩
    · obtain rfl : p.after o u = p' := Except.ok.inj (hwalked.symm.trans hstep)
      refine ⟨hholds.after u, fun e he => ?_⟩
      rcases Progress.after_edits u he with he | he
      · exact horigin e he
      · exact ⟨u, he⟩
    · obtain rfl : p = p' := Except.ok.inj (hleft.symm.trans hstep)
      exact ⟨hholds.skip hnone, horigin⟩
    · rw [hfault] at hstep
      cases hstep

theorem mem_splice_iff {edits : EditSet} {t : Transformed}
    (h : splice o filename source edits = .ok t) (e : Edit) : e ∈ t.edits ↔ e ∈ edits.edits :=
  (splice_perm h).mem_iff

/-- The edits of a document are those of its scripts, and the declarations behind the last one. -/
theorem edits_of_transformFile {t : Transformed} (h : transformFile o filename source = .ok t) :
    (∀ e ∈ t.edits, (∃ u : Script filename source, u.Issues o e) ∨
        ∃ stop, e = .insertAfter stop ("\n" ++ primitiveDeclarations o)) ∧
      ∀ u : Script filename source, ∃ session,
        ∀ e ∈ (Walk.script o session u.region.start u.text u.stmts).edits.edits, e ∈ t.edits := by
  obtain ⟨regions, hregions, h⟩ := transformFile_inv h
  obtain ⟨p, result, hfold, hresult, rfl⟩ := transformRegions_inv h
  obtain ⟨hholds, horigin⟩ := regions_gathered hregions hfold
  obtain ⟨tail, hfinal, htail⟩ := finalEdits_edits o p
  have hmem (e : Edit) : e ∈ result.edits ↔ e ∈ p.edits.edits ++ tail := by
    rw [← hfinal]
    exact mem_splice_iff hresult e
  constructor
  · intro e he
    rcases List.mem_append.mp ((hmem e).mp he) with he | he
    · exact .inl (horigin e he)
    · obtain ⟨stop, _, heq⟩ := htail e he
      exact .inr ⟨stop, heq⟩
  · intro u
    obtain ⟨found, hfound, hr⟩ := u.found
    obtain rfl : regions = found := Option.some.inj (hregions.symm.trans hfound)
    obtain ⟨session, hsub⟩ := hholds.edits u hr
    exact ⟨session, fun e he => (hmem e).mpr (List.mem_append_left _ (hsub.subset he))⟩

end Gathering

namespace Script

variable {o : Options} {filename : String} {source : List Char}

def Strips (o : Options) (u : Script filename source) (id : Ident) : Prop :=
  Walk.Strips o u.text u.stmts id

/-- The name stands in the script where an expression or the target of an assignment stands. -/
def Refers (o : Options) (u : Script filename source) (id : Ident) : Prop :=
  ∃ m, .mention m ∈ Walk.traceStmts (Walk.setting o u.text) u.stmts ∧ m.id = id

/-- The width of a byte order mark in front of the script, which its spans do not count. -/
def markWidth (u : Script filename source) : Nat :=
  Text.width u.text - Text.width (Text.withoutMark u.text)

def stop (u : Script filename source) (id : Ident) : Nat :=
  u.region.start + id.span.hi

/-- The name is written in the document as `raw`, with `back` behind it: at its end by its span, but
for a byte order mark. -/
def HasName (u : Script filename source) (id : Ident) (raw back : List Char) : Prop :=
  Writes raw id.name ∧ ∃ front, source = front ++ raw ++ back ∧
    Text.width front + Text.width raw = u.stop id + u.markWidth

theorem placed (u : Script filename source) : ∃ front back, source = front ++ u.text ++ back ∧
    Text.width front = u.region.start ∧ (back = [] ∨ Document.closeTag <+: back) := by
  obtain ⟨regions, hregions, hr⟩ := u.found
  obtain ⟨front, body, back, hsource, hback, hstart, hstop⟩ :=
    Document.regionsOf?_closed hregions hr
  have hslice := Text.slice?_eq_some_iff.mpr ⟨front, back, hsource, hstart, hstop⟩
  obtain rfl : body = u.text := Option.some.inj (hslice.symm.trans u.sliced)
  exact ⟨front, back, hsource, hstart, hback⟩

/-- The text that the spans of a script are about, in its document. -/
theorem placed_withoutMark (u : Script filename source) : ∃ front back,
    source = front ++ Text.withoutMark u.text ++ back ∧
    Text.width front = u.region.start + u.markWidth ∧
    (back = [] ∨ Document.closeTag <+: back) := by
  obtain ⟨front, back, hsource, hstart, hback⟩ := u.placed
  obtain ⟨mark, hmark⟩ := Text.withoutMark_split u.text
  have hwidth : u.markWidth = Text.width mark := by
    have := congrArg Text.width hmark
    rw [Text.width_append] at this
    unfold markWidth
    omega
  refine ⟨front ++ mark, back, ?_, ?_, hback⟩
  · calc
      source = front ++ u.text ++ back := hsource
      _ = front ++ (mark ++ Text.withoutMark u.text) ++ back := by rw [← hmark]
      _ = front ++ mark ++ Text.withoutMark u.text ++ back := by simp
  · rw [Text.width_append, hstart, hwidth]

/-- A word at the end of a script cannot be longer in the document either. -/
theorem endsName_append {rest back : List Char} (h : EndsName rest)
    (hback : back = [] ∨ Document.closeTag <+: back) : EndsName (rest ++ back) := by
  cases rest with
  | cons c rest => exact h
  | nil =>
    rcases hback with rfl | ⟨behind, rfl⟩
    · rfl
    · have hstop : EndsName ['<'] := by
        unfold EndsName
        decide +kernel
      exact hstop

/-- What is written in a script is written in its document. -/
theorem hasName_of_split (u : Script filename source) {id : Ident} {before raw rest : List Char}
    (htext : Text.withoutMark u.text = before ++ raw ++ rest)
    (hhi : Text.width before + Text.width raw = id.span.hi) (hwrites : Writes raw id.name) :
    ∃ back, u.HasName id raw (rest ++ back) ∧ (back = [] ∨ Document.closeTag <+: back) := by
  obtain ⟨front, back, hsource, hstart, hback⟩ := u.placed_withoutMark
  refine ⟨back, ⟨hwrites, front ++ before, ?_, ?_⟩, hback⟩
  · rw [hsource, htext]
    simp
  · rw [Text.width_append, hstart, stop]
    omega

theorem hasName_of_spelled (u : Script filename source) {id : Ident}
    (h : Spelled (Text.withoutMark u.text) id) :
    ∃ raw back, u.HasName id raw back ∧ IsWord raw back := by
  obtain ⟨_, before, raw, rest, htext, _, hhi, hwrites, hword⟩ := h
  obtain ⟨back, hname, hback⟩ := u.hasName_of_split htext hhi hwrites
  exact ⟨raw, rest ++ back, hname, hword.filled, hword.spells, endsName_append hword.ends hback⟩

/-- Where no byte order mark moves the offsets, a sigil is taken from the end of a name if and only
if it is written as one there. -/
theorem HasName.onlySigils_iff {u : Script filename source} {id : Ident} {raw back : List Char}
    (h : u.HasName id raw back) (hsigil : Sigil.endsWithSigil id.name = true)
    (hmark : u.markWidth = 0) :
    OnlySigils source (u.stop id - 1) (u.stop id) ↔ raw.getLast? = some '$' := by
  obtain ⟨hwrites, front, hsource, hstop⟩ := h
  obtain ⟨init, c, rfl, hc⟩ := hwrites.last_byte hsigil
  rw [hmark, Nat.add_zero] at hstop
  rw [← hstop, hsource, onlySigils_last_iff hc]
  simp

/-- The removals of a script: sigils of its text, or the last bytes of names. -/
theorem Issues.remove {u : Script filename source} {lo hi : Nat} (h : u.Issues o (.remove lo hi)) :
    OnlySigils source lo hi ∨ ∃ id, u.Strips o id ∧ lo = u.stop id - 1 ∧ hi = u.stop id := by
  obtain ⟨session, h⟩ := h
  obtain ⟨start, stop, hev, hlt, rfl, rfl⟩ := Walk.script_remove_iff.mp h
  rcases Walk.remove_mem_traceStmts (parseModule_sited u.parsed) hev with honly | ⟨id, hid, rfl, rfl⟩
  · obtain ⟨front, back, hsource, hstart, _⟩ := u.placed
    left
    rw [← hstart, hsource]
    exact honly.within front back
  · exact .inr ⟨id, hid, by rw [Script.stop]; omega, rfl⟩

end Script

section Documents

variable {o : Options} {filename : String} {source : List Char} {t : Transformed}

/-- A name that is to lose its last byte loses it in the document. -/
theorem strips_removed (h : transformFile o filename source = .ok t) {u : Script filename source}
    {id : Ident} (hid : u.Strips o id) : .remove (u.stop id - 1) (u.stop id) ∈ t.edits := by
  obtain ⟨session, hmem⟩ := (edits_of_transformFile h).2 u
  obtain ⟨s, v, hv, hstrips⟩ := hid
  obtain ⟨_, hnode⟩ := hv.sited (parseModule_sited u.parsed)
  obtain ⟨⟨_, front, raw, back, _, _, hhi, hwrites⟩, hsigil⟩ := Walk.stands_of_strips hnode hstrips
  have hpositive : 0 < id.span.hi := by
    obtain ⟨init, c, rfl, hc⟩ := hwrites.last_byte hsigil
    simp only [Text.width_append, Text.width_cons, hc] at hhi
    omega
  refine hmem _ (Walk.script_remove_iff.mpr ⟨id.span.hi - 1, id.span.hi, ?_, by omega, ?_, rfl⟩)
  · exact (Walk.mem_traceStmts_iff rfl).mpr ⟨s, v, hv, Walk.strip_mem_pieces hstrips⟩
  · rw [Script.stop]
    omega

/-- In a document that is transformed, each value is appended behind a whole word, but for the byte
order mark in front of its script. Nothing but sigils is taken away if and only if that holds of the
last byte of each name of a function or an attribute that loses it: where no byte order mark is in
front, if the sigil there is not written with an escape. -/
theorem transformFile_anchored_iff (h : transformFile o filename source = .ok t) :
    (∀ pos, .insertAfter pos ".value" ∈ t.edits →
        ∃ (u : Script filename source) (id : Ident) (raw back : List Char), u.Refers o id ∧
          pos = u.stop id ∧ u.HasName id raw back ∧ IsWord raw back) ∧
      ((∀ lo hi, .remove lo hi ∈ t.edits → OnlySigils source lo hi) ↔
        ∀ (u : Script filename source) (id : Ident), u.Strips o id →
          OnlySigils source (u.stop id - 1) (u.stop id)) ∧
      ∀ (u : Script filename source) (id : Ident), u.Strips o id →
        ∃ raw back, u.HasName id raw back ∧ (u.markWidth = 0 →
          (OnlySigils source (u.stop id - 1) (u.stop id) ↔ raw.getLast? = some '$')) := by
  obtain ⟨horigin, _⟩ := edits_of_transformFile h
  refine ⟨?_, ⟨?_, ?_⟩, ?_⟩
  · intro pos hpos
    rcases horigin _ hpos with ⟨u, session, hissued⟩ | ⟨stop, heq⟩
    · obtain ⟨m, hm, rfl⟩ := Walk.script_value_mention u.parsed hissued
      have hspelled := Walk.mention_mem_traceStmts (parseModule_sited u.parsed) hm
      obtain ⟨raw, back, hname, hword⟩ := u.hasName_of_spelled hspelled
      exact ⟨u, m.id, raw, back, ⟨m, hm, rfl⟩, rfl, hname, hword⟩
    · -- declarations start on a line of their own
      have hhead := congrArg (fun text => text.toList.head?) (Edit.insertAfter.inj heq).2
      simp at hhead
  · intro hremoves u id hid
    exact hremoves _ _ (strips_removed h hid)
  · intro hstrips lo hi hremove
    rcases horigin _ hremove with ⟨u, hissued⟩ | ⟨stop, heq⟩
    · rcases hissued.remove with honly | ⟨id, hid, rfl, rfl⟩
      · exact honly
      · exact hstrips u id hid
    · cases heq
  · intro u id hid
    obtain ⟨s, v, hv, hstrips⟩ := hid
    obtain ⟨_, hnode⟩ := hv.sited (parseModule_sited u.parsed)
    obtain ⟨⟨_, before, raw, rest, htext, _, hhi, hwrites⟩, hsigil⟩ :=
      Walk.stands_of_strips hnode hstrips
    obtain ⟨back, hname, _⟩ := u.hasName_of_split htext hhi hwrites
    exact ⟨raw, rest ++ back, hname, hname.onlySigils_iff hsigil⟩

end Documents

/-- A script with a value to append, and with a function whose name ends in a sigil that is written
with an escape. -/
def escapedText : List Char :=
  "let a = $f(); a; function use\\u0024() {}".toList

/-- All three kinds of edits, one of them at the end of an escape. -/
theorem transformFile_anchored_iff_escaped : ∃ t,
    transformFile {} "t.ts" escapedText = .ok t ∧
    t.edits = [.remove 8 9, .insertAfter 15 ".value", .remove 34 35] ∧
    (∃ (u : Script "t.ts" escapedText) (id : Ident) (raw back : List Char), u.Refers {} id ∧
      15 = u.stop id ∧ u.HasName id raw back ∧ IsWord raw back) ∧
    Text.slice? 34 35 escapedText = some ['4'] ∧
    ∃ (u : Script "t.ts" escapedText) (id : Ident) (raw back : List Char), u.Strips {} id ∧
      u.HasName id raw back ∧ raw.getLast? ≠ some '$' := by
  have hregions : Document.regionsOf? "t.ts" escapedText = some [.whole escapedText .ts] := by
    decide +kernel
  obtain ⟨_, ht⟩ := @transformFile_of_edits {} "t.ts" escapedText _
    [.remove 8 9, .remove 34 35, .insertAfter 15 ".value"] rfl hregions (by decide +kernel)
  have happly : EditSet.apply ⟨[.remove 8 9, .remove 34 35, .insertAfter 15 ".value"]⟩ escapedText =
      .ok ⟨"let a = f(); a.value; function use\\u002() {}".toList,
        [⟨0, 0, 0⟩, ⟨0, 8, 9⟩, ⟨0, 20, 15⟩, ⟨0, 39, 35⟩]⟩ := by cbv
  have hsorted : EditSet.sorted ⟨[.remove 8 9, .remove 34 35, .insertAfter 15 ".value"]⟩ =
      [.remove 8 9, .insertAfter 15 ".value", .remove 34 35] := by cbv
  simp only [splice, EditSet.isEmpty, List.isEmpty_cons, Bool.false_eq_true, if_false, happly,
    hsorted, Except.map] at ht
  have hslice : Text.slice? 34 35 escapedText = some ['4'] := by decide +kernel
  have hmark (u : Script "t.ts" escapedText) : u.markWidth = 0 := by
    obtain ⟨regions, hsome, hr⟩ := u.found
    obtain ⟨_, htext⟩ := region_of_whole hregions hsome hr u.sliced
    rw [Script.markWidth, htext]
    decide +kernel
  obtain ⟨hvalues, hremoves, hstrips⟩ := transformFile_anchored_iff ht
  refine ⟨_, ht, rfl, hvalues 15 (by simp), hslice, ?_⟩
  have hother : ¬ OnlySigils escapedText 34 35 := by
    rw [OnlySigils, hslice]
    simp
  have hsome := mt hremoves.mpr fun hall => hother (hall 34 35 (by simp))
  simp only [not_forall, exists_prop] at hsome
  obtain ⟨u, id, hid, hnot⟩ := hsome
  obtain ⟨raw, back, hname, hlast⟩ := hstrips u id hid
  exact ⟨u, id, raw, back, hid, hname, fun h => hnot ((hlast (hmark u)).mpr h)⟩

end Transform

end RefSugar

import RefSugar.Transform
import RefSugar.Proofs.Placement
import RefSugar.Proofs.Regions
import RefSugar.Proofs.StrippedTwice
import RefSugar.Proofs.WalkEdits
import RefSugar.Proofs.WalkLayout

/-! When the edits of a document conflict. The edits of scripts with nested spans can be applied
unless a script takes a sigil away twice. -/
namespace RefSugar

open Syntax Walk

variable {text : List Char} {stmts : List Stmt} {R S : List Span} {P : List Nat} {edits : List Edit}
  {done regions : List Region} {p : Progress} {t : Transformed}

namespace Walk

section Units

variable {s : Setting} {n c m : Node}

/-- What a walk comes upon is a part, or a part of a part. -/
theorem walked_cases (hc : c ∈ walked s n) :
    c ∈ n.children ∨ ∃ d ∈ n.children, c ∈ d.children := by
  unfold walked at hc
  split at hc
  · obtain ⟨d, hd, hc⟩ := List.mem_flatMap.mp hc
    exact .inr ⟨.declarator d, List.mem_map_of_mem hd, hc⟩
  · left
    rcases List.mem_append.mp hc with hc | hc
    · split at hc
      · simp at hc
      · exact List.mem_cons.mpr (.inl (List.mem_singleton.mp hc))
    · exact List.mem_cons.mpr (.inr hc)
  · exact .inl hc

theorem sizeOf_lt_of_mem_walked (n c : Node) (hc : c ∈ walked s n) : sizeOf c < sizeOf n := by
  rcases walked_cases hc with hc | ⟨d, hd, hc⟩
  · exact Node.sizeOf_lt_of_mem_children hc
  · exact Nat.lt_trans (Node.sizeOf_lt_of_mem_children hc) (Node.sizeOf_lt_of_mem_children hd)

theorem reaches_of_walked (h : Node.Reaches (walked s) n m) : Node.Reaches Node.children n m := by
  induction h with
  | refl n => exact .refl n
  | step hc _ ih =>
    rcases walked_cases hc with hc | ⟨d, hd, hc⟩
    · exact .step hc ih
    · exact .step hd (.step hc ih)

/-- Statements one behind the other in a text, whose spans are nested. -/
structure NestedIn (text : List Char) (stmts : List Stmt) : Prop where
  apart : (stmts.map Stmt.extent).Pairwise Span.Apart
  within : ∀ st ∈ stmts, st.extent.hi ≤ Text.width text
  nested : ∀ st ∈ stmts, Node.Nested (.stmt st)

/-- Statements of at most `depth` levels can be looked through. -/
theorem NestedIn.of_check (depth : Nat) (hapart : Span.allApart (stmts.map Stmt.extent) = true)
    (hstmts : (stmts.all fun st => decide (st.extent.hi ≤ Text.width text) &&
      Node.check Node.isNested depth (.stmt st)) = true) : NestedIn text stmts := by
  simp only [List.all_eq_true, Bool.and_eq_true, decide_eq_true_eq] at hstmts
  exact ⟨Span.allApart_iff.mp hapart, fun st hst => (hstmts st hst).1,
    fun st hst => Node.everywhere_of_check (hstmts st hst).2⟩

/-- What is known of statements that have been read from a text. -/
structure ReadFrom (s : Setting) (stmts : List Stmt) : Prop where
  cuts : ∀ st ∈ stmts,
    Node.Everywhere Node.children (CutsAt (Text.isBoundary · s.source = true)) (.stmt st)
  explicit : ∀ st ∈ stmts, Node.Everywhere Node.children (ReadsExplicit s) (.stmt st)

/-- A walk over the statements comes upon a declaration that takes a sigil away twice. -/
def StripsTwice (s : Setting) (stmts : List Stmt) : Prop :=
  ∃ st ∈ stmts, ∃ d, Node.Reaches (walked s) (.stmt st) (.declarator d) ∧ StrippedTwice s d

/-- The events of nested statements are laid over their extents. What is asked of the text is asked
for a careful layout only. -/
theorem laid_of_nested {g : Ground}
    (hok : ∀ p, Text.isBoundary p s.source = true → g.ok p) (hnested : NestedIn s.source stmts)
    (hcuts : ∀ st ∈ stmts, Node.Everywhere Node.children (CutsAt g.ok) (.stmt st))
    (hexplicit : g.careful → ∀ st ∈ stmts,
      Node.Everywhere Node.children (ReadsExplicit s) (.stmt st))
    (honce : g.careful → ∀ st ∈ stmts, ∀ m, Node.Reaches (walked s) (.stmt st) m →
      StripsOnce g.twice s m) :
    Laid g (stmts.map Stmt.extent) (traceStmts s stmts) (returnLeaves stmts) := by
  refine laid_stmts (fun st hst => ?_) hnested.apart
  refine laid_node hok (Node.everywhere_of_reaches sizeOf_lt_of_mem_walked _ ?_) s.isExempt
  intro m hm
  have hchild := reaches_of_walked hm
  exact ⟨(hnested.nested st hst).of_reaches hchild, (hcuts st hst).of_reaches hchild, fun hcareful =>
    ⟨(hexplicit hcareful st hst).of_reaches hchild, honce hcareful st hst m hm⟩⟩

theorem cutsAt_of_forall {ok : Nat → Prop} (hok : ∀ p, ok p) (n : Node) :
    Node.Everywhere Node.children (CutsAt ok) n := by
  refine Node.everywhere_of_reaches (fun n c hc => Node.sizeOf_lt_of_mem_children hc) n ?_
  intro m _
  have hpattern (p : Pattern) : CutsPattern ok p := by
    unfold CutsPattern
    split <;> simp [CutsName, hok]
  unfold CutsAt
  split <;> simp [CutsName, hok, hpattern]

/-- Without a look at the text, the events of nested statements are laid somehow. -/
theorem laid_carelessly (hnested : NestedIn s.source stmts) :
    Laid ⟨False, fun _ => False, fun _ => True⟩ (stmts.map Stmt.extent) (traceStmts s stmts)
      (returnLeaves stmts) :=
  laid_of_nested (fun _ _ => trivial) hnested (fun st _ => cutsAt_of_forall (by simp) _) False.elim
    False.elim

theorem NestedIn.held (h : NestedIn text stmts) :
    ∀ a ∈ stmts.map Stmt.extent, 0 ≤ a.lo ∧ a.hi ≤ Text.width text := by
  intro a ha
  obtain ⟨st, hst, rfl⟩ := List.mem_map.mp ha
  exact ⟨Nat.zero_le _, h.within st hst⟩

/-- The events of such statements can be made edits of. -/
theorem traceStmts_tidy {stmts : List Stmt} (hnested : NestedIn s.source stmts)
    (hread : ReadFrom s stmts) (honce : ¬ StripsTwice s stmts) :
    Tidy (fun _ => False) (Text.isBoundary · s.source = true) [⟨0, Text.width s.source⟩]
      (rangesOf (traceStmts s stmts)) (pointsOf (traceStmts s stmts)) := by
  have hlaid : Laid ⟨True, fun _ => False, (Text.isBoundary · s.source = true)⟩
      (stmts.map Stmt.extent) (traceStmts s stmts) (returnLeaves stmts) := by
    refine laid_of_nested (fun _ => id) hnested hread.cuts (fun _ => hread.explicit) ?_
    intro _ st hst m hm
    cases m with
    | declarator d =>
      cases d
      exact fun htwice => absurd ⟨st, hst, _, hm, htwice⟩ honce
    | _ => trivial
  exact ((hlaid.tidy trivial).of_points (List.subset_append_left _ _)).widen hnested.held

theorem not_takesApart_of_stripsTwice (h : StripsTwice s stmts) :
    ¬ TakesApart (traceStmts s stmts) := by
  obtain ⟨st, hst, d, hd, htwice⟩ := h
  intro hapart
  refine not_takesApart_of_reached hd htwice (hapart.of_sublist ?_)
  obtain ⟨front, back, rfl⟩ := List.append_of_mem hst
  rw [traceStmts_eq, List.flatMap_append, List.flatMap_cons]
  exact (List.sublist_append_left _ _).trans (List.sublist_append_right _ _)

end Units

theorem Tidy.imp {twice twice' ok ok' : Nat → Prop}
    (h : Tidy twice ok S R P) (htwice : ∀ p, twice p → twice' p) (himp : ∀ p, ok p → ok' p) :
    Tidy twice' ok' S R P where
  range_held := h.range_held
  range_filled := h.range_filled
  range_ok := fun r hr => ⟨himp _ (h.range_ok r hr).1, himp _ (h.range_ok r hr).2⟩
  range_apart := h.range_apart.imp fun hab => hab.imp_right fun hrest => ⟨htwice _ hrest.1, hrest.2⟩
  point_held := h.point_held
  point_ok := fun p hp => himp p (h.point_ok p hp)
  point_clear := h.point_clear

/-- More spans to lie in make nothing less tidy. -/
theorem Tidy.more {twice ok : Nat → Prop} {S' : List Span}
    (h : Tidy twice ok S R P) (hsub : S ⊆ S') : Tidy twice ok S' R P where
  range_held := by
    intro r hr
    obtain ⟨a, ha, hheld⟩ := h.range_held r hr
    exact ⟨a, hsub ha, hheld⟩
  range_filled := h.range_filled
  range_ok := h.range_ok
  range_apart := h.range_apart
  point_held := by
    intro p hp
    obtain ⟨a, ha, hheld⟩ := h.point_held p hp
    exact ⟨a, hsub ha, hheld⟩
  point_ok := h.point_ok
  point_clear := h.point_clear

end Walk

namespace Splice

theorem replacement?_eq_some {e : Edit} {r : Replacement} (h : replacement? e = some r) :
    (⟨r.start, r.stop⟩ : Span) ∈ e.ranges := by
  cases e <;> simp_all [replacement?] <;> simp [← h]

theorem mem_ranges_iff {e : Edit} {a : Span} :
    a ∈ e.ranges ↔ ∃ r, replacement? e = some r ∧ a = ⟨r.start, r.stop⟩ := by
  cases e <;> simp [replacement?]

theorem rangesFilled_of_ranges
    (h : ∀ r ∈ edits.flatMap Edit.ranges, r.lo < r.hi) : RangesFilled edits := by
  intro e he r hr
  exact h _ (List.mem_flatMap.mpr ⟨e, he, replacement?_eq_some hr⟩)

/-- No tidy insertion stands in the middle of a range. -/
theorem clear_of_tidy {twice ok : Nat → Prop}
    (h : Tidy twice ok S (edits.flatMap Edit.ranges) (edits.flatMap Edit.points)) :
    ∀ e ∈ edits, ∀ f ∈ edits, Clear e f := by
  intro e he f hf pos hpos r hr
  have hmem : pos ∈ e.points := by cases e <;> simp_all [insertPos?]
  exact h.point_clear pos (List.mem_flatMap.mpr ⟨e, he, hmem⟩) _
    (List.mem_flatMap.mpr ⟨f, hf, replacement?_eq_some hr⟩)

/-- Tidy ranges and points are placed edits. -/
theorem placed_of_tidy {source : List Char}
    (h : Tidy (fun _ => False) (Text.isBoundary · source = true) S (edits.flatMap Edit.ranges)
      (edits.flatMap Edit.points)) : Placed source edits := by
  have hrange : ∀ e ∈ edits, ∀ a ∈ e.ranges, a ∈ edits.flatMap Edit.ranges :=
    fun e he a ha => List.mem_flatMap.mpr ⟨e, he, ha⟩
  have hpoint : ∀ e ∈ edits, ∀ p ∈ e.points, p ∈ edits.flatMap Edit.points :=
    fun e he p hp => List.mem_flatMap.mpr ⟨e, he, hp⟩
  have hends : ∀ e ∈ edits, e.start ≤ e.stop ∧ Text.isBoundary e.start source = true ∧
      Text.isBoundary e.stop source = true := by
    intro e he
    have hranges := hrange e he
    have hpoints := hpoint e he
    cases e with
    | insertBefore pos text | insertAfter pos text =>
      have hok := h.point_ok pos (hpoints pos (by simp))
      exact ⟨Nat.le_refl pos, hok, hok⟩
    | remove start stop | overwrite start stop text =>
      have hmem := hranges ⟨start, stop⟩ (by simp)
      exact ⟨Nat.le_of_lt (h.range_filled _ hmem), h.range_ok _ hmem⟩
  refine ⟨fun e he => (hends e he).1, fun e he => (hends e he).2.1, fun e he => (hends e he).2.2,
    ?_, ?_⟩
  · refine (List.pairwise_flatMap.mp (h.apart fun _ => id)).2.imp ?_
    intro e f hef r hr q hq
    exact hef _ (replacement?_eq_some hr) _ (replacement?_eq_some hq)
  · exact clear_of_tidy h

/-- The ranges of placed edits are apart. -/
theorem ranges_apart_of_apart (h : edits.Pairwise Apart) :
    (edits.flatMap Edit.ranges).Pairwise Span.Apart := by
  refine List.pairwise_flatMap.mpr ⟨?_, h.imp ?_⟩
  · intro e _
    cases e <;> simp
  · intro e f hef a ha b hb
    obtain ⟨r, hr, rfl⟩ := mem_ranges_iff.mp ha
    obtain ⟨q, hq, rfl⟩ := mem_ranges_iff.mp hb
    exact hef r hr q hq

end Splice

namespace Transform

open Document (Region)

/-- A script of a file that is walked: a region with a sigil, its text and its statements. -/
structure Script (filename : String) (source : List Char) where
  region : Region
  text : List Char
  stmts : List Stmt
  found : ∃ regions, Document.regionsOf? filename source = some regions ∧ region ∈ regions
  sliced : Text.slice? region.start region.stop source = some text
  hasSigil : Sigil.containsSigil text = true
  parsed : parseModule region.dialect text = .ok stmts

def Script.Conflicts {filename : String} {source : List Char} (o : Options)
    (u : Script filename source) : Prop :=
  StripsTwice (setting o u.text) u.stmts

/-- Every region of the file that has a sigil can be read. -/
def Parses (filename : String) (source : List Char) : Prop :=
  ∀ regions, Document.regionsOf? filename source = some regions → ∀ r ∈ regions, ∀ text,
    Text.slice? r.start r.stop source = some text → Sigil.containsSigil text = true →
    ∃ stmts, parseModule r.dialect text = .ok stmts

def regionSpan (r : Region) : Span :=
  ⟨r.start, r.stop⟩

def Progress.after {filename : String} {source : List Char} (o : Options) (p : Progress)
    (u : Script filename source) : Progress :=
  let walked := Walk.script o p.session u.region.start u.text u.stmts
  { session := walked.session
    edits := p.edits.append walked.edits
    unwrapBindings := p.unwrapBindings ++ walked.rootUnwraps
    lastChanged := if walked.edits.isEmpty then p.lastChanged else some u.region.stop }

section Documents

variable {o : Options} {filename : String} {source : List Char}

/-- A region is walked, or left as it is, or has a sigil and cannot be read. -/
theorem region_outcomes {regions : List Region}
    (hregions : Document.regionsOf? filename source = some regions) {r : Region} (hr : r ∈ regions)
    (p : Progress) :
    (∃ u : Script filename source, u.region = r ∧ region o filename source p r = .ok (p.after o u)) ∨
      ((∀ u : Script filename source, u.region ≠ r) ∧ region o filename source p r = .ok p) ∨
      ∃ text fault, Text.slice? r.start r.stop source = some text ∧
        Sigil.containsSigil text = true ∧ parseModule r.dialect text = .error fault ∧
        region o filename source p r = .error (.parse (fault.describe filename text)) := by
  obtain ⟨a, text, b, hsource, hstart, hstop⟩ := (Document.regionsOf?_pieces hregions).1 r hr
  have hslice : Text.slice? r.start r.stop source = some text :=
    Text.slice?_eq_some_iff.mpr ⟨a, b, hsource, hstart, hstop⟩
  unfold region
  rw [hslice]
  by_cases hsigil : Sigil.containsSigil text = true
  · cases hparse : parseModule r.dialect text with
    | ok stmts =>
      exact .inl ⟨⟨r, text, stmts, ⟨regions, hregions, hr⟩, hslice, hsigil, hparse⟩, rfl,
        by simp [hsigil, hparse, Progress.after]⟩
    | error fault =>
      exact .inr (.inr ⟨text, fault, rfl, hsigil, hparse, by simp [hsigil, hparse]⟩)
  · refine .inr (.inl ⟨?_, by simp [hsigil]⟩)
    rintro ⟨_, text', _, _, hslice', hsigil', _⟩ rfl
    rw [hslice] at hslice'
    exact hsigil (Option.some.inj hslice' ▸ hsigil')

/-- A region that can be read is walked, or left as it is. -/
theorem region_cases {regions : List Region}
    (hregions : Document.regionsOf? filename source = some regions)
    (hparses : Parses filename source) {r : Region} (hr : r ∈ regions) (p : Progress) :
    (∃ u : Script filename source, u.region = r ∧ region o filename source p r = .ok (p.after o u)) ∨
      (∀ u : Script filename source, u.region ≠ r) ∧ region o filename source p r = .ok p := by
  rcases @region_outcomes o filename source regions hregions r hr p with
    hwalked | hleft | ⟨text, fault, hslice, hsigil, hfault, _⟩
  · exact .inl hwalked
  · exact .inr hleft
  · obtain ⟨stmts, hparse⟩ := hparses regions hregions r hr text hslice hsigil
    rw [hfault] at hparse
    cases hparse

theorem Script.eq_of_region {u v : Script filename source} (h : u.region = v.region) : u = v := by
  obtain ⟨r, text, stmts, _, hslice, _, hparse⟩ := u
  obtain ⟨q, text', stmts', _, hslice', _, hparse'⟩ := v
  dsimp only at h
  subst h
  obtain rfl : text = text' := Option.some.inj (hslice.symm.trans hslice')
  obtain rfl : stmts = stmts' := Except.ok.inj (hparse.symm.trans hparse')
  rfl

/-- A fold that may fail carries a property of what it has passed through to its end. -/
theorem foldlM_induct {ε α β : Type} {f : β → α → Except ε β} {motive : List α → β → Prop}
    {init : β} (hinit : motive [] init) (all : List α)
    (hstep : ∀ done a b, done ++ [a] <+: all → motive done b →
      ∃ b', f b a = .ok b' ∧ motive (done ++ [a]) b') :
    ∃ b, all.foldlM f init = .ok b ∧ motive all b := by
  suffices h : ∀ rest done b, all = done ++ rest → motive done b →
      ∃ b', rest.foldlM f b = .ok b' ∧ motive all b' from h all [] init rfl hinit
  intro rest
  induction rest with
  | nil =>
    intro done b hall hb
    rw [List.append_nil] at hall
    exact ⟨b, rfl, hall ▸ hb⟩
  | cons a rest ih =>
    intro done b hall hb
    have hall' : all = done ++ [a] ++ rest := by simp [hall]
    obtain ⟨b', hstep', hb'⟩ := hstep done a b ⟨rest, hall'.symm⟩ hb
    obtain ⟨b'', hrest, hb''⟩ := ih (done ++ [a]) b' hall' hb'
    exact ⟨b'', by rw [List.foldlM_cons, hstep']; exact hrest, hb''⟩

structure Progress.Sound (source : List Char) (done : List Region) (p : Progress) : Prop where
  tidy : Tidy (fun _ => False) (Text.isBoundary · source = true) (done.map regionSpan)
    (p.edits.edits.flatMap Edit.ranges) (p.edits.edits.flatMap Edit.points)
  last : ∀ stop, p.lastChanged = some stop → ∃ r ∈ done, r.stop = stop

structure Progress.Holds (o : Options) (filename : String) (source : List Char)
    (done : List Region) (p : Progress) : Prop where
  filled : ∀ r ∈ p.edits.edits.flatMap Edit.ranges, r.lo < r.hi
  edits : ∀ u : Script filename source, u.region ∈ done → ∃ session,
    (Walk.script o session u.region.start u.text u.stmts).edits.edits.Sublist p.edits.edits

theorem script_ranges_filled (session : Session) (base : Nat) (text : List Char)
    (stmts : List Stmt) :
    ∀ r ∈ (Walk.script o session base text stmts).edits.edits.flatMap Edit.ranges, r.lo < r.hi := by
  intro r hr
  rw [script_ranges] at hr
  obtain ⟨a, ha, rfl⟩ := List.mem_map.mp hr
  exact Nat.add_lt_add_left (Span.isFilled_iff.mp (List.mem_filter.mp ha).2) base

theorem Progress.Holds.skip {r : Region}
    (h : p.Holds o filename source done) (hr : ∀ u : Script filename source, u.region ≠ r) :
    p.Holds o filename source (done ++ [r]) where
  filled := h.filled
  edits := by
    intro u hu
    rcases List.mem_append.mp hu with hu | hu
    · exact h.edits u hu
    · exact absurd (List.mem_singleton.mp hu) (hr u)

/-- Walking a script keeps its edits among those of the document. -/
theorem Progress.Holds.after (h : p.Holds o filename source done) (u : Script filename source) :
    (p.after o u).Holds o filename source (done ++ [u.region]) where
  filled := by
    simp only [Progress.after, EditSet.append, List.flatMap_append, List.mem_append]
    rintro r (hr | hr)
    · exact h.filled r hr
    · exact script_ranges_filled _ _ _ _ r hr
  edits := by
    intro v hv
    rcases List.mem_append.mp hv with hv | hv
    · obtain ⟨session, hsub⟩ := h.edits v hv
      exact ⟨session, hsub.trans (List.sublist_append_left _ _)⟩
    · obtain rfl := Script.eq_of_region (List.mem_singleton.mp hv)
      exact ⟨p.session, List.sublist_append_right _ _⟩

theorem Progress.Sound.skip (h : p.Sound source done)
    (r : Region) : p.Sound source (done ++ [r]) where
  tidy := by
    rw [List.map_append]
    exact h.tidy.more (List.subset_append_left _ _)
  last := by
    intro stop hstop
    obtain ⟨q, hq, heq⟩ := h.last stop hstop
    exact ⟨q, List.mem_append_left _ hq, heq⟩

/-- A script without conflicts adds edits that stay inside its region. -/
theorem Progress.Sound.after (h : p.Sound source done)
    (u : Script filename source) (hnested : NestedIn u.text u.stmts)
    (hread : ReadFrom (setting o u.text) u.stmts) (honce : ¬ u.Conflicts o)
    (hbefore : ∀ q ∈ done, q.stop ≤ u.region.start) :
    (p.after o u).Sound source (done ++ [u.region]) := by
  obtain ⟨a, b, hsource, hstart, hstop⟩ := Text.slice?_eq_some_iff.mp u.sliced
  have hevents := @traceStmts_tidy (setting o u.text) u.stmts hnested hread honce
  have hscript := script_tidy o p.session u.region.start u.text u.stmts
    (Text.isBoundary_zero u.text) (Text.isBoundary_width u.text) hevents
  have hlift : ∀ pos, (∃ q, pos = u.region.start + q ∧ Text.isBoundary q u.text = true) →
      Text.isBoundary pos source = true := by
    rintro pos ⟨q, rfl, hq⟩
    obtain ⟨c, d, hcd, rfl⟩ := Text.isBoundary_iff.mp hq
    exact Text.isBoundary_iff.mpr ⟨a ++ c, d ++ b, by simp [hsource, hcd], by simp [hstart]⟩
  have hspan : regionSpan u.region =
      ⟨u.region.start, u.region.start + Text.width u.text⟩ := by
    rw [regionSpan, ← hstop, hstart]
  refine ⟨?_, ?_⟩
  · rw [List.map_append, List.map_singleton, hspan]
    simp only [Progress.after, EditSet.append, List.flatMap_append]
    refine h.tidy.append (hscript.imp (by simp) hlift) ?_
    simp only [AllApart, List.forall_mem_map, List.mem_singleton, forall_eq]
    exact fun q hq => .inl (hbefore q hq)
  · intro stop hlast
    simp only [Progress.after] at hlast
    split at hlast
    · obtain ⟨q, hq, heq⟩ := h.last stop hlast
      exact ⟨q, List.mem_append_left _ hq, heq⟩
    · exact ⟨u.region, by simp, Option.some.inj hlast⟩

/-- The declarations, if they are asked for, stand behind the last region with an edit. -/
theorem finalEdits_eq (o : Options) (p : Progress) :
    (p.finalEdits o).edits = p.edits.edits ++ if o.declarations then
      p.lastChanged.toList.map fun stop => .insertAfter stop ("\n" ++ primitiveDeclarations o)
      else [] := by
  unfold Progress.finalEdits
  cases p.lastChanged with
  | none => simp
  | some stop => cases h : o.declarations <;> simp [EditSet.insertAfter, EditSet.push]

/-- The declarations stand behind a region. -/
theorem finalEdits_edits (o : Options) (p : Progress) : ∃ tail : List Edit,
    (p.finalEdits o).edits = p.edits.edits ++ tail ∧
      ∀ e ∈ tail, ∃ stop, p.lastChanged = some stop ∧
        e = .insertAfter stop ("\n" ++ primitiveDeclarations o) := by
  refine ⟨_, finalEdits_eq o p, fun e he => ?_⟩
  split at he
  · obtain ⟨stop, hstop, rfl⟩ := List.mem_map.mp he
    exact ⟨stop, Option.mem_toList.mp hstop, rfl⟩
  · cases he

/-- An end of a region keeps clear of what lies inside the regions. -/
theorem stop_clear {twice ok : Nat → Prop} (h : Tidy twice ok (regions.map regionSpan) R P)
    (hordered : regions.Pairwise fun r q => r.stop ≤ q.start)
    (hle : ∀ r ∈ regions, r.start ≤ r.stop) {r : Region} (hr : r ∈ regions) :
    ∀ a ∈ R, r.stop ≤ a.lo ∨ a.hi ≤ r.stop := by
  intro a ha
  obtain ⟨span, hspan, hlo, hhi⟩ := h.range_held a ha
  obtain ⟨q, hq, rfl⟩ := List.mem_map.mp hspan
  obtain ⟨front, back, rfl⟩ := List.append_of_mem hr
  obtain ⟨_, hback, hfront⟩ := List.pairwise_append.mp hordered
  have hapart : r = q ∨ r.stop ≤ q.start ∨ q.stop ≤ r.start := by
    rcases List.mem_append.mp hq with hq | hq
    · exact .inr (.inr (hfront q hq r (by simp)))
    · rcases List.mem_cons.mp hq with rfl | hq
      · exact .inl rfl
      · exact .inr (.inl ((List.pairwise_cons.mp hback).1 q hq))
  have hrle := hle r hr
  simp only [regionSpan] at hlo hhi
  rcases hapart with rfl | hapart | hapart <;> omega

/-- Edits inside of regions can be applied to the document all at once. -/
theorem Progress.Sound.placed (h : p.Sound source regions)
    (hregions : Document.regionsOf? filename source = some regions) (o : Options) :
    Splice.Placed source (p.finalEdits o).edits := by
  obtain ⟨hpieces, hordered⟩ := Document.regionsOf?_pieces hregions
  have hstop : ∀ r ∈ regions, r.start ≤ r.stop ∧ Text.isBoundary r.stop source = true := by
    intro r hr
    obtain ⟨a, body, b, hsource, hstart, hstop⟩ := hpieces r hr
    refine ⟨by omega, Text.isBoundary_iff.mpr ⟨a ++ body, b, hsource, ?_⟩⟩
    rw [Text.width_append, hstop]
  obtain ⟨tail, hedits, htail⟩ := finalEdits_edits o p
  have htail' : ∀ e ∈ tail, ∃ r ∈ regions, ∃ text, e = .insertAfter r.stop text := by
    intro e he
    obtain ⟨stop, hlast, rfl⟩ := htail e he
    obtain ⟨r, hr, rfl⟩ := h.last stop hlast
    exact ⟨r, hr, _, rfl⟩
  have hranges : tail.flatMap Edit.ranges = [] := by
    rw [List.flatMap_eq_nil_iff]
    intro e he
    obtain ⟨r, _, text, rfl⟩ := htail' e he
    rfl
  have hpoints : ∀ p ∈ tail.flatMap Edit.points, ∃ r ∈ regions, p = r.stop := by
    intro p hp
    obtain ⟨e, he, hp⟩ := List.mem_flatMap.mp hp
    obtain ⟨r, hr, text, rfl⟩ := htail' e he
    exact ⟨r, hr, by simpa using hp⟩
  refine Splice.placed_of_tidy (S := regions.map regionSpan) ?_
  rw [hedits, List.flatMap_append, List.flatMap_append, hranges, List.append_nil]
  refine ⟨h.tidy.range_held, h.tidy.range_filled, h.tidy.range_ok, h.tidy.range_apart, ?_, ?_, ?_⟩
  · intro p hp
    rcases List.mem_append.mp hp with hp | hp
    · exact h.tidy.point_held p hp
    · obtain ⟨r, hr, rfl⟩ := hpoints p hp
      exact ⟨regionSpan r, List.mem_map_of_mem hr, (hstop r hr).1, Nat.le_refl _⟩
  · intro p hp
    rcases List.mem_append.mp hp with hp | hp
    · exact h.tidy.point_ok p hp
    · obtain ⟨r, hr, rfl⟩ := hpoints p hp
      exact (hstop r hr).2
  · intro p hp
    rcases List.mem_append.mp hp with hp | hp
    · exact h.tidy.point_clear p hp
    · obtain ⟨r, hr, rfl⟩ := hpoints p hp
      exact stop_clear h.tidy hordered (fun r hr => (hstop r hr).1) hr

/-- The edits of a script with a conflict cannot be applied, whatever else is edited. -/
theorem Progress.Holds.not_placed
    (h : p.Holds o filename source regions) {u : Script filename source}
    (hu : u.region ∈ regions) (hconflict : u.Conflicts o) :
    ¬ Splice.Placed source (p.finalEdits o).edits := by
  intro hplaced
  obtain ⟨tail, hedits, _⟩ := finalEdits_edits o p
  obtain ⟨session, hsub⟩ := h.edits u hu
  have hapart := hplaced.apart.sublist
    (hsub.trans (hedits ▸ List.sublist_append_left p.edits.edits tail))
  have hranges := Splice.ranges_apart_of_apart hapart
  rw [script_ranges, List.pairwise_map] at hranges
  refine not_takesApart_of_stripsTwice hconflict (hranges.imp ?_)
  intro a b hab
  simp only [Span.Apart, Span.shift] at hab ⊢
  omega

/-- The edits are told by their start. -/
theorem splice_perm {edits : EditSet}
    (h : splice o filename source edits = .ok t) : t.edits.Perm edits.edits := by
  unfold splice at h
  split at h
  · rename_i hempty
    obtain rfl := Except.ok.inj h
    rw [List.isEmpty_iff.mp hempty]
    exact .refl []
  · split at h
    · cases h
    · obtain rfl := Except.ok.inj h
      exact List.mergeSort_perm edits.edits _

theorem splice_of_placed {edits : EditSet} (h : Splice.Placed source edits.edits)
    (hfilled : Splice.RangesFilled edits.edits) :
    ∃ t, splice o filename source edits = .ok t := by
  unfold splice EditSet.apply
  rw [(Splice.fault_eq_none_iff hfilled).mpr h]
  split
  · exact ⟨_, rfl⟩
  · exact ⟨_, rfl⟩

theorem splice_of_not_placed {edits : EditSet} (h : ¬ Splice.Placed source edits.edits)
    (hfilled : Splice.RangesFilled edits.edits) :
    ∃ e, splice o filename source edits = .error (.edit e) := by
  have hfault : Splice.fault source edits.edits ≠ none :=
    fun hnone => h ((Splice.fault_eq_none_iff hfilled).mp hnone)
  obtain ⟨e, he⟩ := Option.ne_none_iff_exists'.mp hfault
  have hsome : edits.isEmpty = false := by
    rw [EditSet.isEmpty, List.isEmpty_eq_false_iff]
    intro hnil
    exact h (by rw [hnil]; exact ⟨by simp, by simp, by simp, .nil, by simp⟩)
  exact ⟨e, by simp [splice, hsome, EditSet.apply, he]⟩

theorem Progress.Holds.rangesFilled
    (h : p.Holds o filename source done) : Splice.RangesFilled (p.finalEdits o).edits := by
  obtain ⟨tail, hedits, htail⟩ := finalEdits_edits o p
  have hranges : tail.flatMap Edit.ranges = [] := by
    rw [List.flatMap_eq_nil_iff]
    intro e he
    obtain ⟨stop, _, rfl⟩ := htail e he
    rfl
  refine Splice.rangesFilled_of_ranges ?_
  rw [hedits, List.flatMap_append, hranges, List.append_nil]
  exact h.filled

/-- All regions can be gone through, and without conflicts their edits are sound. -/
theorem regions_progress {regions : List Region}
    (hregions : Document.regionsOf? filename source = some regions)
    (hparses : Parses filename source)
    (hnested : ∀ u : Script filename source, NestedIn u.text u.stmts)
    (hread : ∀ u : Script filename source, ReadFrom (setting o u.text) u.stmts) :
    ∃ p, regions.foldlM (region o filename source) {} = .ok p ∧ p.Holds o filename source regions ∧
      ((∀ u : Script filename source, ¬ u.Conflicts o) → p.Sound source regions) := by
  have hordered := (Document.regionsOf?_pieces hregions).2
  refine @foldlM_induct _ _ _ (region o filename source) (fun done p =>
    p.Holds o filename source done ∧
      ((∀ u : Script filename source, ¬ u.Conflicts o) → p.Sound source done)) {} ?_ regions ?_
  · exact ⟨⟨by simp, by simp⟩,
      fun _ => ⟨⟨by simp, by simp, by simp, .nil, by simp, by simp, by simp⟩, by simp⟩⟩
  · rintro done r p hdone ⟨hholds, hsound⟩
    have hr : r ∈ regions := hdone.subset (by simp)
    have hbefore : ∀ q ∈ done, q.stop ≤ r.start := by
      intro q hq
      have hpairwise := hordered.sublist hdone.sublist
      exact (List.pairwise_append.mp hpairwise).2.2 q hq r (by simp)
    rcases @region_cases o filename source regions hregions hparses r hr p with
      ⟨u, rfl, hstep⟩ | ⟨hnone, hstep⟩
    · exact ⟨_, hstep, hholds.after u, fun honce =>
        (hsound honce).after u (hnested u) (hread u) (honce u) hbefore⟩
    · exact ⟨p, hstep, hholds.skip hnone, fun honce => (hsound honce).skip r⟩

/-- Regions that are transformed have all been gone through, and their edits have been applied. -/
theorem transformRegions_inv (h : transformRegions o filename source regions = .ok t) :
    ∃ p result, regions.foldlM (region o filename source) {} = .ok p ∧
      splice o filename source (p.finalEdits o) = .ok result ∧
      t = { result with unwrapBindings := p.unwrapBindings } := by
  unfold transformRegions at h
  cases hfold : regions.foldlM (region o filename source) {} with
  | error e => simp [hfold, bind, Except.bind] at h
  | ok p =>
    cases hsplice : splice o filename source (p.finalEdits o) with
    | error e => simp [hfold, hsplice, bind, Except.bind] at h
    | ok result =>
      refine ⟨p, result, rfl, hsplice, ?_⟩
      simpa [hfold, hsplice, bind, Except.bind, pure, Except.pure, eq_comm] using h

theorem transformFile_inv (h : transformFile o filename source = .ok t) :
    ∃ regions, Document.regionsOf? filename source = some regions ∧
      transformRegions o filename source regions = .ok t := by
  unfold transformFile at h
  split at h
  · cases h
  · rename_i regions hregions
    exact ⟨regions, hregions, h⟩

theorem transformFile_eq (hregions : Document.regionsOf? filename source = some regions)
    (hfold : regions.foldlM (region o filename source) {} = .ok p) :
    transformFile o filename source = (splice o filename source (p.finalEdits o)).map
      fun result => { result with unwrapBindings := p.unwrapBindings } := by
  unfold transformFile transformRegions
  rw [hregions]
  dsimp only
  rw [hfold]
  simp only [bind, Except.bind, pure, Except.pure]
  cases splice o filename source (p.finalEdits o) <;> rfl

/-- A document whose regions can be looked through is transformed by the edits that they come to. -/
theorem transformFile_of_edits {regions : List Region} {edits : List Edit}
    (hdeclarations : o.declarations = false)
    (hregions : Document.regionsOf? filename source = some regions)
    (hfold : (match regions.foldlM (region o filename source) {} with
      | .ok p => decide (p.edits.edits = edits)
      | .error _ => false) = true) :
    ∃ unwrapBindings, transformFile o filename source =
      (splice o filename source ⟨edits⟩).map fun result => { result with unwrapBindings } := by
  split at hfold
  · rename_i p hp
    have hedits : p.finalEdits o = ⟨edits⟩ := by
      rw [← of_decide_eq_true hfold]
      unfold Progress.finalEdits
      split <;> simp [hdeclarations]
    exact ⟨p.unwrapBindings, hedits ▸ transformFile_eq hregions hp⟩
  · cases hfold

/-- Scripts that can be read are transformed, unless one of them has a conflict. -/
theorem transformFile_cases (hregions : Document.regionsOf? filename source = some regions)
    (hparses : Parses filename source)
    (hnested : ∀ u : Script filename source, NestedIn u.text u.stmts)
    (hread : ∀ u : Script filename source, ReadFrom (setting o u.text) u.stmts) :
    (∃ u : Script filename source, u.Conflicts o) ∧
        (∃ e, transformFile o filename source = .error (.edit e)) ∨
      (¬ ∃ u : Script filename source, u.Conflicts o) ∧
        ∃ t, transformFile o filename source = .ok t := by
  obtain ⟨p, hfold, hholds, hsound⟩ :=
    @regions_progress o filename source regions hregions hparses hnested hread
  rw [transformFile_eq hregions hfold]
  by_cases hconflict : ∃ u : Script filename source, u.Conflicts o
  · refine .inl ⟨hconflict, ?_⟩
    obtain ⟨u, hu⟩ := hconflict
    have hmem : u.region ∈ regions := by
      obtain ⟨regions', hregions', hmem⟩ := u.found
      rw [hregions] at hregions'
      exact Option.some.inj hregions' ▸ hmem
    obtain ⟨e, he⟩ :=
      @splice_of_not_placed o filename source _ (hholds.not_placed hmem hu) hholds.rangesFilled
    exact ⟨e, by rw [he]; rfl⟩
  · refine .inr ⟨hconflict, ?_⟩
    have hplaced := (hsound fun u hu => hconflict ⟨u, hu⟩).placed hregions o
    obtain ⟨t, ht⟩ := @splice_of_placed o filename source _ hplaced hholds.rangesFilled
    exact ⟨_, by rw [ht]; rfl⟩

end Documents

section Files

variable {filename : String} {source : List Char} {dialect : Dialect}
  (hregions : Document.regionsOf? filename source = some [.whole source dialect])
include hregions

/-- The one region of a script file. -/
theorem region_of_whole {regions : List Document.Region} {r : Document.Region}
    (hsome : Document.regionsOf? filename source = some regions) (hr : r ∈ regions)
    (hsliced : Text.slice? r.start r.stop source = some text) :
    r.dialect = dialect ∧ text = source := by
  obtain rfl : [.whole source dialect] = regions := Option.some.inj (hregions.symm.trans hsome)
  obtain rfl := List.mem_singleton.mp hr
  have hall : Text.slice? 0 (Text.width source) source = some source :=
    Text.slice?_eq_some_iff.mpr ⟨[], [], by simp, by simp, by simp⟩
  exact ⟨rfl, Option.some.inj (hsliced.symm.trans hall)⟩

theorem Parses.of_whole (hparse : parseModule dialect source = .ok stmts) :
    Parses filename source := by
  intro regions hsome r hr text hsliced _
  obtain ⟨hdialect, rfl⟩ := region_of_whole hregions hsome hr hsliced
  exact ⟨stmts, hdialect ▸ hparse⟩

theorem Script.of_whole (hparse : parseModule dialect source = .ok stmts)
    (u : Script filename source) : u.text = source ∧ u.stmts = stmts := by
  obtain ⟨r, text, stmts', ⟨regions, hsome, hr⟩, hsliced, _, hparsed⟩ := u
  obtain ⟨rfl, rfl⟩ := region_of_whole hregions hsome hr hsliced
  exact ⟨rfl, Except.ok.inj (hparsed.symm.trans hparse)⟩

end Files

end Transform

end RefSugar

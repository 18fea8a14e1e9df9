import Mathlib
import RefSugar.Proofs.Conflicts
import RefSugar.Proofs.ReadScripts

/-! How edits can be at odds with each other. Main statements: in one script, insertions stay clear of
what is taken away, and two ranges overlap only where a declaration takes the sigil in front of a
callee whose first call takes it as well; and a document cannot be transformed if and only if this
happens in one of its scripts. -/
namespace RefSugar

open Syntax

namespace Splice

variable {source : List Char} {edits : List Edit}

/-- Neighbours that overlap are reported as such. -/
theorem overlapFault_eq_some {ranges : List Replacement} {err : EditError}
    (h : overlapFault ranges = some err) : ∃ a b, err = .overlap a b := by
  induction ranges with
  | nil => cases h
  | cons a rest ih =>
    cases rest with
    | nil => cases h
    | cons b rest =>
      rw [overlapFault] at h
      split at h
      · exact ⟨_, _, (Option.some.inj h).symm⟩
      · exact ih h

/-- Edits that stay inside the text, and whose insertions keep clear of what is replaced, have no other
faults than cut characters and overlaps. -/
theorem fault_cases (hheld : ∀ e ∈ edits, e.start ≤ e.stop ∧ e.stop ≤ Text.width source)
    (hclear : ∀ e ∈ edits, ∀ f ∈ edits, Clear e f) {err : EditError}
    (h : fault source edits = some err) :
    (∃ pos, err = .notCharBoundary pos) ∨ ∃ a b, err = .overlap a b := by
  rw [fault, (insideFault_eq_none_iff edits).mpr hclear, Option.or_none] at h
  rcases Option.or_eq_some_iff.mp h with h | ⟨_, h⟩
  · obtain ⟨e, he, h⟩ := List.exists_of_findSome?_eq_some h
    obtain ⟨hle, hwidth⟩ := hheld e he
    have hin : (decide (e.stop < e.start) || decide (Text.width source < e.stop)) = false := by
      simp [Nat.not_lt.mpr hle, Nat.not_lt.mpr hwidth]
    unfold editFault at h
    dsimp only at h
    rw [hin, if_neg Bool.false_ne_true] at h
    split at h
    · exact .inl ⟨_, (Option.some.inj h).symm⟩
    · split at h
      · exact .inl ⟨_, (Option.some.inj h).symm⟩
      · cases h
  · exact .inr (overlapFault_eq_some h)

end Splice

/-- Only an overwriting is issued as one. -/
theorem Edit.overwrite_mem_issued {e : Edit} {start stop : Nat} {text : String}
    (h : .overwrite start stop text ∈ e.issued) : e = .overwrite start stop text := by
  rcases mem_issued h with ⟨heq, _⟩ | ⟨_, _, _, _, _, heq⟩
  · exact heq.symm
  · cases heq

namespace Walk

/-- The walk comes upon a declaration that takes a sigil away for the second time: the one at the
offset, where the callee of its value starts. -/
def StripsTwiceAt (s : Setting) (stmts : List Stmt) (pos : Nat) : Prop :=
  ∃ st ∈ stmts, ∃ span target init callee,
    Node.Reaches (walked s) (.stmt st) (.declarator (.mk span target init)) ∧
    StrippedTwice s (.mk span target init) ∧ unwrapCallee? s init = some callee ∧
    callee.span.lo = pos

section Scripts

variable {o : Options} {session : Session} {base : Nat} {source : List Char} {stmts : List Stmt}
  (hnested : NestedIn source stmts)

include hnested

/-- Events of statements in which only names read `$$`. -/
theorem laid_clashing (hexplicit : ∀ st ∈ stmts,
      Node.Everywhere Node.children (ReadsExplicit (setting o source)) (.stmt st)) :
    Laid ⟨True, StripsTwiceAt (setting o source) stmts, fun _ => True⟩ (stmts.map Stmt.extent)
      (traceStmts (setting o source) stmts) (returnLeaves stmts) := by
  refine laid_of_nested (s := setting o source) (fun _ _ => trivial) hnested
    (fun st _ => cutsAt_of_forall (by simp) _) (fun _ => hexplicit) ?_
  intro _ st hst m hm
  cases m with
  | declarator d =>
    obtain ⟨span, target, init⟩ := d
    exact fun htwice callee hcallee => ⟨st, hst, span, target, init, callee, hm, htwice, hcallee, rfl⟩
  | _ => trivial

/-- Overwritten patterns are those that are unpacked. -/
theorem overwrite_mem_script {start stop : Nat} {text : String}
    (h : .overwrite start stop text ∈ (script o session base source stmts).edits.edits) :
    ∃ place plan stop', .unpack place plan stop' ∈ traceStmts (setting o source) stmts ∧
      start = base + plan.span.lo := by
  obtain ⟨emitted, imports, hedits, _, hevents, himports⟩ :=
    script_edits o session base source stmts
  rw [hedits, List.mem_append, List.mem_append] at h
  rcases h with (h | h) | h
  · obtain ⟨e, he, h⟩ := List.mem_flatMap.mp h
    have hshift := Edit.overwrite_mem_issued h
    cases e with
    | overwrite lo hi t =>
      obtain ⟨rfl, _⟩ : base + lo = start ∧ _ := by simpa [Edit.shift] using hshift
      obtain ⟨event, hevent, temp, he⟩ := hevents _ he
      cases event with
      | edit e =>
        obtain rfl : Edit.overwrite lo hi t = e := List.mem_singleton.mp he
        rcases (laid_carelessly (s := setting o source) hnested).edit_forms hevent with
          ⟨_, _, heq⟩ | ⟨leaf, wrapFn, hmem⟩
        · cases heq
        · cases leaf <;> simp [Leaf.edits] at hmem
      | unpack place plan stop' =>
        obtain ⟨rfl, _⟩ : lo = plan.span.lo ∧ _ := by simpa [Event.edits] using he
        exact ⟨place, plan, stop', hevent, rfl⟩
      | _ => simp [Event.edits] at he
    | _ => simp [Edit.shift] at hshift
  · obtain ⟨e, he, h⟩ := List.mem_flatMap.mp h
    have hshift := Edit.overwrite_mem_issued h
    obtain ⟨ref, _, he⟩ := List.mem_flatMap.mp he
    cases hclass : ref.classify (scriptRun o session base source stmts).scopes.leave
      (scriptRun o session base source stmts).marked o.resolution
    all_goals
      rw [hclass] at he
      cases e <;> simp_all [Reference.editsFor, Edit.shift]
  · obtain ⟨_, _, _, heq⟩ := himports _ h
    cases heq

/-- No pattern is overwritten where something is taken away twice: a reference stands there. -/
theorem not_overwritten {pos start stop : Nat} {text : String}
    (hpos : StripsTwiceAt (setting o source) stmts pos)
    (h : .overwrite start stop text ∈ (script o session base source stmts).edits.edits) :
    start ≠ base + pos := by
  obtain ⟨place, plan, stop', hunpack, rfl⟩ := overwrite_mem_script hnested h
  obtain ⟨st, hst, span, target, init, callee, hreach, htwice, hcallee, rfl⟩ := hpos
  obtain ⟨m, hm, hlo⟩ := mention_of_reached hreach htwice hcallee
  have hm : .mention m ∈ traceStmts (setting o source) stmts := by
    rw [traceStmts_eq]
    exact List.mem_flatMap.mpr ⟨st, hst, hm⟩
  have htidy := (laid_carelessly (s := setting o source) hnested).solids_tidy
  have hsolid {ev : Event} {a : Span} (hev : ev ∈ traceStmts (setting o source) stmts)
      (ha : a ∈ ev.solids) : a.lo < a.hi :=
    htidy.range_filled a (List.mem_flatMap.mpr ⟨ev, hev, ha⟩)
  have hfilled : m.id.span.lo < m.id.span.hi := hsolid hm (by simp [Event.solids])
  have hfilled' : plan.span.lo < plan.span.hi := hsolid hunpack (by simp [Event.solids])
  let R (ev ev' : Event) : Prop := ∀ a ∈ ev.solids, ∀ b ∈ ev'.solids, a.Apart b
  have : Std.Symm R := ⟨fun ev ev' hapart a ha b hb => (hapart b hb a ha).symm⟩
  have hpairs : (traceStmts (setting o source) stmts).Pairwise R :=
    (List.pairwise_flatMap.mp (htidy.apart fun _ => id)).2
  have hapart := hpairs.forall hm hunpack (by simp) m.id.span (by simp [Event.solids]) plan.span
    (by simp [Event.solids])
  rcases hapart with hapart | hapart <;> omega

end Scripts

/-- Wherever only names read `$$`, the edits of a script are within bounds and insert nothing inside of
a range, and two of its ranges overlap only if both take away what starts at one offset, one of them
being the sigil in front of the callee of a declaration to unwrap. -/
theorem script_clashes (o : Options) (session : Session) (base : Nat) (source : List Char)
    (stmts : List Stmt) (hnested : NestedIn source stmts) (hexplicit : ∀ st ∈ stmts,
      Node.Everywhere Node.children (ReadsExplicit (setting o source)) (.stmt st)) :
    (∀ document err, base + Text.width source ≤ Text.width document →
      (script o session base source stmts).edits.apply document = .error err →
      (∃ pos, err = .notCharBoundary pos) ∨ ∃ a b, err = .overlap a b) ∧
    (script o session base source stmts).edits.edits.Pairwise fun e f =>
      ∀ a ∈ e.ranges, ∀ b ∈ f.ranges, a.Apart b ∨
        ∃ pos, StripsTwiceAt (setting o source) stmts pos ∧
          ∃ stop stop', e = .remove (base + pos) stop ∧ f = .remove (base + pos) stop' ∧
            (stop = base + pos + 1 ∨ stop' = base + pos + 1) := by
  have hevents : Tidy (StripsTwiceAt (setting o source) stmts) (fun _ => True)
      [⟨0, Text.width source⟩] (rangesOf (traceStmts (setting o source) stmts))
      (pointsOf (traceStmts (setting o source) stmts)) :=
    (((laid_clashing hnested hexplicit).tidy trivial).of_points
      (List.subset_append_left _ _)).widen hnested.held
  have htidy := script_tidy o session base source stmts trivial trivial hevents
  constructor
  · -- all edits lie inside the document, and no insertion inside of a range
    intro document err hwidth happly
    have hheld : ∀ e ∈ (script o session base source stmts).edits.edits,
        e.start ≤ e.stop ∧ e.stop ≤ Text.width document := by
      intro e he
      have hrange (a : Span) (ha : a ∈ e.ranges) : a.lo ≤ a.hi ∧ a.hi ≤ Text.width document := by
        have hmem := List.mem_flatMap.mpr ⟨e, he, ha⟩
        obtain ⟨b, hb, _, hhi⟩ := htidy.range_held a hmem
        obtain rfl := List.mem_singleton.mp hb
        exact ⟨Nat.le_of_lt (htidy.range_filled a hmem), Nat.le_trans hhi hwidth⟩
      have hpoint (p : Nat) (hp : p ∈ e.points) : p ≤ Text.width document := by
        obtain ⟨b, hb, _, hhi⟩ := htidy.point_held p (List.mem_flatMap.mpr ⟨e, he, hp⟩)
        obtain rfl := List.mem_singleton.mp hb
        exact Nat.le_trans hhi hwidth
      cases e with
      | insertBefore pos text | insertAfter pos text => exact ⟨Nat.le_refl _, hpoint pos (by simp)⟩
      | remove start stop | overwrite start stop text => exact hrange ⟨start, stop⟩ (by simp)
    refine Splice.fault_cases hheld (Splice.clear_of_tidy htidy) ?_
    unfold EditSet.apply at happly
    split at happly
    · rename_i hfault
      rw [hfault, Except.error.inj happly]
    · cases happly
  · have hpairs := (List.pairwise_flatMap.mp htidy.range_apart).2
    refine List.Pairwise.imp_of_mem ?_ hpairs
    intro e f he hf hbeside a ha b hb
    refine (hbeside a ha b hb).imp_right ?_
    rintro ⟨⟨pos, hpos, htwice⟩, hlo, hbyte⟩
    -- what starts at a byte that is taken away twice is no pattern that is overwritten
    have hremove {e : Edit} {a : Span} (he : e ∈ (script o session base source stmts).edits.edits)
        (ha : a ∈ e.ranges) (hlo : a.lo = base + pos) : e = .remove (base + pos) a.hi := by
      cases e with
      | insertBefore _ _ | insertAfter _ _ => simp at ha
      | remove start stop =>
        obtain rfl := List.mem_singleton.mp ha
        exact hlo ▸ rfl
      | overwrite start stop text =>
        obtain rfl := List.mem_singleton.mp ha
        exact absurd hlo (not_overwritten hnested htwice he)
    exact ⟨pos, htwice, a.hi, b.hi, hremove he ha hpos, hremove hf hb (hlo.trans hpos), by omega⟩

/-- A text with a declaration that takes away a sigil twice, and its statements. -/
def twiceText : List Char :=
  "let x = $a()()".toList

def twiceStmts : List Stmt :=
  [.vars ⟨0, 14⟩ .lexical [.mk ⟨4, 14⟩ (.name ⟨"x", ⟨4, 5⟩⟩)
    (some (.call ⟨8, 14⟩ .plain (.call ⟨8, 12⟩ .plain (.name ⟨"$a", ⟨8, 10⟩⟩) []) []))]]

/-- Only names read `$$` in statements of at most `depth` levels that can be looked through. -/
theorem explicit_of_check {s : Setting} {stmts : List Stmt} (depth : Nat)
    (h : (stmts.all fun st => Node.check (readsExplicit s) depth (.stmt st)) = true) :
    ∀ st ∈ stmts, Node.Everywhere Node.children (ReadsExplicit s) (.stmt st) := by
  intro st hst
  have heverywhere := Node.everywhere_of_check (List.all_eq_true.mp h st hst)
  exact (funext fun n => propext readsExplicit_iff : (readsExplicit s · = true) = ReadsExplicit s) ▸
    heverywhere

/-- A declaration whose callee starts with a call takes its sigil away twice. -/
theorem script_clashes_twice :
    NestedIn twiceText twiceStmts ∧
      (script {} {} 0 twiceText twiceStmts).edits.edits = [.remove 8 9, .remove 8 9] ∧
      StripsTwiceAt (setting {} twiceText) twiceStmts 8 := by
  have hnested : NestedIn twiceText twiceStmts :=
    .of_check 6 (by decide +kernel) (by decide +kernel)
  have hedits : (script {} {} 0 twiceText twiceStmts).edits.edits = [.remove 8 9, .remove 8 9] := by
    decide +kernel
  have hpairs := (script_clashes {} {} 0 twiceText twiceStmts hnested
    (explicit_of_check 6 (by decide +kernel))).2
  rw [hedits] at hpairs
  refine ⟨hnested, hedits, ?_⟩
  have hpair := (List.pairwise_cons.mp hpairs).1 (.remove 8 9) (by simp) ⟨8, 9⟩ (by simp) ⟨8, 9⟩
    (by simp)
  rcases hpair with hapart | ⟨pos, hpos, _, _, heq, _⟩
  · simp [Span.Apart] at hapart
  · obtain ⟨rfl, _⟩ : 8 = pos ∧ _ := by simpa using heq
    exact hpos

end Walk

namespace Transform

open Walk

/-- Where every script can be read, has nested spans and no byte order mark, and only names read `$$`,
the edits conflict if and only if some script takes a sigil away twice. -/
theorem transformFile_conflicts_iff {o : Options} {filename : String} {source : List Char}
    (hparses : Parses filename source)
    (hnested : ∀ u : Script filename source, NestedIn u.text u.stmts)
    (hmark : ∀ u : Script filename source, Text.withoutMark u.text = u.text)
    (hexplicit : ∀ u : Script filename source, ∀ st ∈ u.stmts,
      Node.Everywhere Node.children (ReadsExplicit (setting o u.text)) (.stmt st)) :
    (∃ e, transformFile o filename source = .error (.edit e)) ↔
      ∃ u : Script filename source, u.Conflicts o := by
  have hread (u : Script filename source) : ReadFrom (setting o u.text) u.stmts := by
    refine ⟨fun st hst => ?_, hexplicit u⟩
    have hsited := parseModule_sited u.parsed st hst
    rw [hmark u] at hsited
    exact cutNode_of_sited (fun _ => id) hsited
  cases hregions : Document.regionsOf? filename source with
  | none =>
    refine iff_of_false ?_ ?_
    · simp [transformFile, hregions]
    · rintro ⟨⟨_, _, _, ⟨regions, hsome, _⟩, _⟩, _⟩
      rw [hregions] at hsome
      cases hsome
  | some regions =>
    rcases transformFile_cases hregions hparses hnested hread with ⟨hconflict, herror⟩ | ⟨hnone, t, ht⟩
    · exact iff_of_true herror hconflict
    · refine iff_of_false ?_ hnone
      rintro ⟨e, he⟩
      rw [ht] at he
      cases he

/-- A file that is refused for its one declaration. -/
theorem transformFile_conflicts_iff_twice :
    transformFile {} "t.ts" twiceText = .error (.edit (.overlap (8, 9) (8, 9))) ∧
      ∃ u : Script "t.ts" twiceText, u.Conflicts {} := by
  have hregions : Document.regionsOf? "t.ts" twiceText = some [.whole twiceText .ts] := by
    decide +kernel
  obtain ⟨stmts, hstmts, hcheck⟩ := @exists_parse .ts twiceText (fun stmts =>
    Span.allApart (stmts.map Stmt.extent) &&
      (stmts.all fun st => decide (st.extent.hi ≤ Text.width twiceText) &&
        Node.check Node.isNested 6 (.stmt st)) &&
      stmts.all fun st => Node.check (readsExplicit (setting {} twiceText)) 6 (.stmt st))
    (by decide +kernel)
  have happly : EditSet.apply ⟨[.remove 8 9, .remove 8 9]⟩ twiceText =
      .error (.overlap (8, 9) (8, 9)) := by cbv
  have herror : transformFile {} "t.ts" twiceText = .error (.edit (.overlap (8, 9) (8, 9))) := by
    obtain ⟨_, ht⟩ := @transformFile_of_edits {} "t.ts" twiceText _ [.remove 8 9, .remove 8 9] rfl
      hregions (by decide +kernel)
    rw [ht]
    simp [splice, EditSet.isEmpty, happly, Except.map]
  refine ⟨herror, ?_⟩
  simp only [Bool.and_eq_true] at hcheck
  have hread := Script.of_whole hregions hstmts
  refine (transformFile_conflicts_iff (.of_whole hregions hstmts) ?_ ?_ ?_).mp ⟨_, herror⟩
  · intro u
    rw [(hread u).1, (hread u).2]
    exact .of_check 6 hcheck.1.1 hcheck.1.2
  · intro u
    rw [(hread u).1]
    decide +kernel
  · intro u
    rw [(hread u).1, (hread u).2]
    exact explicit_of_check 6 hcheck.2

end Transform

end RefSugar

import Mathlib.Data.List.Nodup
import RefSugar.Proofs.Agreement
import RefSugar.Proofs.Chains

/-! Wrapping and unwrapping do not collide. In a tree whose spans are nested, no offset has two keys or
wrappings that open there, nor two values or wrappings that end there; a call of `$$` is never wrapped;
and the value is appended to a reference unless it, or an expression whose head it is, is meant as a
reference. -/
namespace RefSugar

open Syntax

namespace Edit

/-- The offset that something is put in front of: the start of a wrapping, or a key. -/
def openings : Edit → List Nat
  | .insertBefore pos _ => [pos]
  | .insertAfter _ _ | .remove _ _ | .overwrite _ _ _ => []

/-- The offset that the end of a wrapping or a value is put behind. -/
def closings : Edit → List Nat
  | .insertAfter pos text => if text = ")" ∨ text = ".value" then [pos] else []
  | .insertBefore _ _ | .remove _ _ | .overwrite _ _ _ => []

theorem closings_of_ne {pos : Nat} {text : String} (h : text ≠ ")" ∧ text ≠ ".value") :
    closings (.insertAfter pos text) = [] := by
  simp [closings, h]

/-- Issuing opens nothing that the edit does not open. -/
theorem openings_issued (base : Nat) {e : Edit} (hfilled : ∀ start stop text,
    e = .overwrite start stop text → start < stop) :
    ((e.shift base).issued.flatMap openings).Sublist (e.openings.map (base + ·)) := by
  rcases (e.shift base).issued_cases with
    ⟨_, hissued⟩ | ⟨hvoid, hissued | ⟨start, stop, text, heq, hissued⟩⟩
  · rw [hissued]
    cases e <;> simp [shift, openings]
  · simp [hissued]
  · -- an overwriting of nothing is ruled out
    cases e with
    | overwrite lo hi t =>
      have hlt := hfilled lo hi t rfl
      simp [shift, isFilled] at hvoid
      omega
    | _ => cases heq

theorem closings_issued (base : Nat) (e : Edit) :
    ((e.shift base).issued.flatMap closings).Sublist (e.closings.map (base + ·)) := by
  rcases (e.shift base).issued_cases with
    ⟨_, hissued⟩ | ⟨_, hissued | ⟨start, stop, text, heq, hissued⟩⟩
  · rw [hissued]
    cases e with
    | insertAfter pos text =>
      by_cases htext : text = ")" ∨ text = ".value" <;> simp [shift, closings, htext]
    | _ => simp [shift, closings]
  · simp [hissued]
  · simp [hissued, closings]

end Edit

namespace Walk

open Edit (openings closings)

theorem issuedAt_sublist {f : Edit → List Nat} {base : Nat} {edits : List Edit}
    (h : ∀ e ∈ edits, ((e.shift base).issued.flatMap f).Sublist ((f e).map (base + ·))) :
    ((Run.issuedAt base edits).flatMap f).Sublist ((edits.flatMap f).map (base + ·)) := by
  induction edits with
  | nil => exact .slnil
  | cons e edits ih =>
    rw [Run.issuedAt, List.flatMap_cons, List.flatMap_append, List.flatMap_cons, List.map_append]
    exact (h e (by simp)).append (ih fun e' he' => h e' (by simp [he']))

section Resolved

variable (o : Options) (r : Run)

def Run.classOf (ref : Reference) : Reference.Class :=
  ref.classify r.scopes.leave r.marked o.resolution

theorem resolved_closings : (r.resolved o).flatMap closings =
    (r.references.filter fun ref => (r.classOf o ref).needsValue).map fun ref => ref.span.hi := by
  rw [Run.resolved]
  induction r.references with
  | nil => rfl
  | cons ref refs ih =>
    rw [List.flatMap_cons, List.flatMap_append, ih, List.filter_cons, Run.classOf]
    cases ref.classify r.scopes.leave r.marked o.resolution <;>
      simp [Reference.editsFor, Reference.Class.needsValue, closings]

theorem resolved_openings : (r.resolved o).flatMap openings =
    (r.references.filter fun ref => decide (r.classOf o ref = .shorthandKey)).map
      fun ref => ref.span.lo := by
  rw [Run.resolved]
  induction r.references with
  | nil => rfl
  | cons ref refs ih =>
    rw [List.flatMap_cons, List.flatMap_append, ih, List.filter_cons, Run.classOf]
    cases ref.classify r.scopes.leave r.marked o.resolution <;>
      simp [Reference.editsFor, openings]

variable {o r}

/-- The value is appended unless something speaks against it. -/
theorem classOf_needsValue_iff {ref : Reference} : (r.classOf o ref).needsValue = true ↔
    ref.isActive r.scopes.leave o.resolution = true ∧
      (∀ a ∈ ref.span :: ref.chain, a ∉ r.marked) ∧ ref.isExempt = false := by
  have hexplicit : (ref.span :: ref.chain).any r.marked.contains = false ↔
      ∀ a ∈ ref.span :: ref.chain, a ∉ r.marked := by
    simp
  rw [← hexplicit, Run.classOf, Reference.classify]
  cases ref.isActive r.scopes.leave o.resolution
  · simp [Reference.Class.needsValue]
  · cases (ref.span :: ref.chain).any r.marked.contains
    · cases ref.isExempt
      · cases ref.isShorthand <;> cases ref.isWrite <;> simp [Reference.Class.needsValue]
      · simp [Reference.Class.needsValue]
    · simp [Reference.Class.needsValue]

theorem isShorthand_of_classOf {ref : Reference} (h : r.classOf o ref = .shorthandKey) :
    ref.isShorthand = true := by
  unfold Run.classOf Reference.classify at h
  cases hshorthand : ref.isShorthand with
  | true => rfl
  | false =>
    rw [hshorthand] at h
    repeat' split at h
    all_goals simp_all

end Resolved

/-- A run before any event, for a unit that starts at offset `base` of its document. -/
structure Fresh (r : Run) (base : Nat) : Prop where
  emitter : r.emitter = { base }
  references : r.references = []
  marked : r.marked = []

/-- The pieces of a whole unit: visits that start chains of their own, laid over the text. -/
structure Rooted (ps : List Piece) : Prop where
  quiet : ∀ ev, .event ev ∉ ps
  unchained : ∀ s chain settled e, .part s (.expr chain settled e) ∈ ps → chain = []
  woven : ∃ S L, Woven S (expand ps) L (Calls ps)
  laid : ∃ S L, Laid ⟨False, fun _ => False, fun _ => True⟩ S (expand ps) L

section Units

variable {o : Options} {r : Run} {base : Nat} {source : List Char} {ps : List Piece}

/-- The edits of a whole unit: those of its events, the values, and the import. -/
theorem finish_emits (o : Options) (source : List Char) (hfresh : Fresh r base) :
    ∃ emitted imports : List Edit,
    ((r.steps source (expand ps)).finish o).edits.edits =
      Run.issuedAt base emitted ++
        Run.issuedAt base ((r.steps source (expand ps)).resolved o) ++ imports ∧
    Emits source (expand ps) emitted ∧
    ∀ e ∈ imports, ∃ pos statement, e = .insertAfter pos statement ∧
      statement.toList.head? = some 'i' := by
  obtain ⟨emitted, hedits, hbase, horigin, hemits⟩ :=
    @Run.steps_edits source (expand ps) r (by rw [hfresh.emitter])
  obtain ⟨imports, hfinish, himports⟩ := Run.finish_edits o _ horigin
  rw [hedits, hbase, hfresh.emitter] at hfinish
  refine ⟨emitted, imports, by simpa using hfinish, hemits, ?_⟩
  intro e he
  obtain ⟨statement, new, himport, rfl⟩ := himports e he
  exact ⟨_, statement, rfl, Session.importStatement_head himport⟩

theorem mark_mem_unit (hfresh : Fresh r base) {a : Span} :
    .mark a ∈ expand ps ↔ a ∈ (r.steps source (expand ps)).marked := by
  rw [steps_marked, hfresh.marked]
  simp

/-- The spans that are meant as references are marked. -/
theorem marked_iff (hfresh : Fresh r base) (hroot : Rooted ps) {a : Span} :
    a ∈ (r.steps source (expand ps)).marked ↔ Explicit ps a := by
  rw [← mark_mem_unit hfresh, mem_expand_iff rfl]
  simp only [hroot.quiet, false_or, mark_mem_pieces, Explicit]

/-- A reference was recorded where its name is mentioned. -/
theorem mention_of_reference (hfresh : Fresh r base) {ref : Reference}
    (href : ref ∈ (r.steps source (expand ps)).references) :
    ∃ m, .mention m ∈ expand ps ∧ Refers m ref ∧ ref.isShorthand = m.isShorthand := by
  rcases exists_of_mem_references href with hold | ⟨before, m, after, hevents, rfl⟩
  · rw [hfresh.references] at hold
    cases hold
  · exact ⟨m, by simp [hevents], ⟨rfl, rfl, rfl, rfl⟩, rfl⟩

/-- Where a name is mentioned, a reference is recorded. -/
theorem reference_of_mention {m : Mention} (hm : .mention m ∈ expand ps) :
    ∃ ref ∈ (r.steps source (expand ps)).references, Refers m ref := by
  obtain ⟨before, after, hevents⟩ := List.append_of_mem hm
  refine ⟨recorded (r.steps source before) m, ?_, rfl, rfl, rfl, rfl⟩
  rw [hevents, steps_append, steps_cons]
  refine (steps_extends _ after).references.subset ?_
  exact List.mem_append_right _ (List.mem_singleton_self _)

theorem references_apart (source : List Char) (hfresh : Fresh r base) (hroot : Rooted ps) :
    ((r.steps source (expand ps)).references.Pairwise fun a b => a.span.Apart b.span) ∧
      ∀ ref ∈ (r.steps source (expand ps)).references, ref.span.lo < ref.span.hi := by
  obtain ⟨S, L, hlaid⟩ := hroot.laid
  have hsub := namesOf_sublist (expand ps)
  have hnames := @Run.steps_references source (expand ps) r
  rw [hfresh.references, List.map_nil, List.nil_append] at hnames
  rw [← hnames] at hsub
  exact ⟨List.pairwise_map.mp ((hlaid.solids_tidy.apart fun _ => id).sublist hsub),
    fun ref href => hlaid.solids_tidy.range_filled _ (hsub.subset (List.mem_map_of_mem href))⟩

/-- No two references start or end at the same offset. -/
theorem references_once (hfresh : Fresh r base) (hroot : Rooted ps) :
    ((r.steps source (expand ps)).references.map fun ref => ref.span.lo).Nodup ∧
      ((r.steps source (expand ps)).references.map fun ref => ref.span.hi).Nodup := by
  obtain ⟨hapart, hfilled⟩ := references_apart source hfresh hroot
  constructor
  all_goals
    refine List.pairwise_map.mpr (hapart.imp_of_mem fun {a b} ha hb h => ?_)
    have := hfilled a ha
    have := hfilled b hb
    rcases h with h | h <;> omega

/-- The text of a plan is neither the end of a wrapping nor a value. -/
theorem closings_event (ev : Event) (temp : String) :
    ((ev.edits source temp).flatMap closings).Sublist ev.closes := by
  cases ev with
  | edit e =>
    cases e with
    | insertAfter pos text =>
      by_cases htext : text = ")" ∨ text = ".value" <;>
        simp [Event.edits, closings, Event.closes, htext]
    | _ => simp [Event.edits, closings]
  | unpack place plan stop =>
    have hrender : plan.render source temp ≠ ")" ∧ plan.render source temp ≠ ".value" :=
      ⟨plan.render_ne source temp (.inl rfl), plan.render_ne source temp (.inr rfl)⟩
    simp [Event.edits, closings, hrender]
  | _ => simp [Event.edits]

theorem openings_event (ev : Event) (temp : String) :
    ((ev.edits source temp).flatMap openings).Sublist ev.opens := by
  cases ev with
  | edit e => cases e <;> simp [Event.edits, openings, Event.opens]
  | unpack place plan stop => simp [Event.edits, openings]
  | _ => simp [Event.edits]

/-- No pattern that is overwritten is empty. -/
theorem overwrite_filled (hroot : Rooted ps) {emitted : List Edit}
    (hemits : Emits source (expand ps) emitted) {start stop : Nat} {text : String}
    (he : .overwrite start stop text ∈ emitted) : start < stop := by
  obtain ⟨S, L, hlaid⟩ := hroot.laid
  obtain ⟨ev, hev, temp, he⟩ := hemits.exists_event he
  cases ev with
  | edit e =>
    obtain rfl : Edit.overwrite start stop text = e := List.mem_singleton.mp he
    rcases hlaid.edit_forms hev with ⟨_, _, heq⟩ | ⟨leaf, wrapFn, hmem⟩
    · cases heq
    · cases leaf <;> simp [Leaf.edits] at hmem
  | unpack place plan stop' =>
    obtain ⟨rfl, rfl, _⟩ : start = plan.span.lo ∧ stop = plan.span.hi ∧ text = temp := by
      simpa [Event.edits] using he
    exact hlaid.solids_tidy.range_filled plan.span
      (List.mem_flatMap.mpr ⟨_, hev, by simp [Event.solids]⟩)
  | _ => simp [Event.edits] at he

/-- What is opened in the end was opened at once, or is a key that is spelled out. -/
theorem openings_sublist (hfresh : Fresh r base) (hroot : Rooted ps) :
    (((r.steps source (expand ps)).finish o).edits.edits.flatMap openings).Sublist
      ((opensOf (expand ps) ++ (((r.steps source (expand ps)).references.filter fun ref =>
        decide ((r.steps source (expand ps)).classOf o ref = .shorthandKey)).map
          fun ref => ref.span.lo)).map (base + ·)) := by
  obtain ⟨emitted, imports, hedits, hemits, himports⟩ := finish_emits o source hfresh
  have himport : imports.flatMap openings = [] := by
    rw [List.flatMap_eq_nil_iff]
    intro e he
    obtain ⟨pos, statement, rfl, _⟩ := himports e he
    rfl
  rw [hedits, List.flatMap_append, List.flatMap_append, himport, List.append_nil, List.map_append,
    ← resolved_openings]
  refine .append ?_ ?_
  · refine (issuedAt_sublist fun e he => Edit.openings_issued base ?_).trans
      ((hemits.flatMap_sublist fun ev _ temp => openings_event ev temp).map _)
    rintro start stop text rfl
    exact overwrite_filled hroot hemits he
  · refine issuedAt_sublist fun e he => Edit.openings_issued base ?_
    rintro start stop text rfl
    have hnone := Run.ranges_resolved o (r.steps source (expand ps))
    simpa using List.flatMap_eq_nil_iff.mp hnone _ he

/-- What is closed in the end was closed at once, or is a value. -/
theorem closings_sublist (hfresh : Fresh r base) :
    (((r.steps source (expand ps)).finish o).edits.edits.flatMap closings).Sublist
      ((closesOf (expand ps) ++ (((r.steps source (expand ps)).references.filter fun ref =>
        ((r.steps source (expand ps)).classOf o ref).needsValue).map
          fun ref => ref.span.hi)).map (base + ·)) := by
  obtain ⟨emitted, imports, hedits, hemits, himports⟩ := finish_emits o source hfresh
  have himport : imports.flatMap closings = [] := by
    rw [List.flatMap_eq_nil_iff]
    intro e he
    obtain ⟨pos, statement, rfl, hhead⟩ := himports e he
    refine Edit.closings_of_ne ⟨?_, ?_⟩
    all_goals
      rintro rfl
      simp at hhead
  rw [hedits, List.flatMap_append, List.flatMap_append, himport, List.append_nil, List.map_append,
    ← resolved_closings]
  refine .append ?_ ?_
  · exact (issuedAt_sublist fun e _ => Edit.closings_issued base e).trans
      ((hemits.flatMap_sublist fun ev _ temp => closings_event ev temp).map _)
  · exact issuedAt_sublist fun e _ => Edit.closings_issued base e

/-- A key is not spelled out where a wrapping opens: the name would be what is wrapped. -/
theorem openings_nodup (hfresh : Fresh r base) (hroot : Rooted ps) :
    (((r.steps source (expand ps)).finish o).edits.edits.flatMap openings).Nodup := by
  obtain ⟨S, L, hwoven⟩ := hroot.woven
  refine List.Nodup.sublist (openings_sublist hfresh hroot) ?_
  refine List.Nodup.map (fun _ _ h => Nat.add_left_cancel h) ?_
  rw [List.nodup_append]
  refine ⟨hwoven.opens_once, ?_, ?_⟩
  · exact (references_once hfresh hroot).1.sublist (List.filter_sublist.map _)
  · rintro p hp q hq rfl
    obtain ⟨ref, href, rfl⟩ := List.mem_map.mp hq
    obtain ⟨href, hclass⟩ := List.mem_filter.mp href
    have hclass := of_decide_eq_true hclass
    obtain ⟨m, hm, ⟨_, hspan, _⟩, hshorthand⟩ := mention_of_reference hfresh href
    have hmark := hwoven.open_named m hm (hshorthand ▸ isShorthand_of_classOf hclass) (hspan ▸ hp)
    have hneeds := (classOf_needsValue_iff.mp (by rw [hclass]; rfl)).2.1 ref.span (by simp)
    exact hneeds ((mark_mem_unit hfresh).mp (hspan ▸ hmark))

/-- Nothing is put behind one offset twice. -/
theorem closings_nodup (hfresh : Fresh r base) (hroot : Rooted ps) :
    (((r.steps source (expand ps)).finish o).edits.edits.flatMap closings).Nodup := by
  obtain ⟨S, L, hwoven⟩ := hroot.woven
  refine List.Nodup.sublist (closings_sublist hfresh) ?_
  refine List.Nodup.map (fun _ _ h => Nat.add_left_cancel h) ?_
  rw [List.nodup_append]
  refine ⟨hwoven.closes_once, ?_, ?_⟩
  · exact (references_once hfresh hroot).2.sublist (List.filter_sublist.map _)
  · rintro p hp q hq rfl
    obtain ⟨ref, href, rfl⟩ := List.mem_map.mp hq
    obtain ⟨href, hneeds⟩ := List.mem_filter.mp href
    obtain ⟨m, hm, ⟨_, hspan, _⟩, _⟩ := mention_of_reference hfresh href
    have hmark := hwoven.close_named m hm (hspan ▸ hp)
    have hnot := (classOf_needsValue_iff.mp hneeds).2.1 ref.span (by simp)
    exact hnot ((mark_mem_unit hfresh).mp (hspan ▸ hmark))

/-- What stands behind an offset in the end, by what the events and the references put there. -/
theorem insertAfter_mem_finish (hfresh : Fresh r base) {text : String}
    (htext : text = ")" ∨ text = ".value") (pos : Nat) :
    .insertAfter (base + pos) text ∈ ((r.steps source (expand ps)).finish o).edits.edits ↔
      .edit (.insertAfter pos text) ∈ expand ps ∨
        .insertAfter pos text ∈ (r.steps source (expand ps)).resolved o := by
  obtain ⟨emitted, imports, hedits, hemits, himports⟩ := finish_emits o source hfresh
  have hne : text ≠ "" := by
    rintro rfl
    simp at htext
  have himport : .insertAfter (base + pos) text ∉ imports := by
    intro he
    obtain ⟨_, statement, heq, hhead⟩ := himports _ he
    obtain ⟨_, rfl⟩ := Edit.insertAfter.inj heq
    rcases htext with rfl | rfl <;> simp at hhead
  rw [hedits, List.mem_append, List.mem_append, Edit.insertAfter_mem_issuedAt hne,
    Edit.insertAfter_mem_issuedAt hne]
  simp only [himport, or_false]
  refine or_congr_left ⟨fun he => ?_, hemits.edit_mem⟩
  obtain ⟨ev, hev, temp, he⟩ := hemits.exists_event he
  cases ev with
  | edit e => exact List.mem_singleton.mp he ▸ hev
  | unpack place plan stop =>
    obtain ⟨_, hrender⟩ : pos = stop ∧ text = plan.render source temp := by
      simpa [Event.edits] using he
    exact absurd hrender.symm (plan.render_ne source temp htext)
  | _ => simp [Event.edits] at he

/-- A wrapping ends at an offset if and only if a leaf that ends there is wrapped. -/
theorem wrapping_mem_iff (hfresh : Fresh r base) (hroot : Rooted ps) (pos : Nat) :
    .insertAfter (base + pos) ")" ∈ ((r.steps source (expand ps)).finish o).edits.edits ↔
      pos ∈ closesOf (expand ps) := by
  obtain ⟨S, L, hlaid⟩ := hroot.laid
  have hresolved : .insertAfter pos ")" ∉ (r.steps source (expand ps)).resolved o := by
    intro he
    obtain ⟨ref, _, he⟩ := List.mem_flatMap.mp he
    cases h : ref.classify (r.steps source (expand ps)).scopes.leave
      (r.steps source (expand ps)).marked o.resolution <;>
      simp [h, Reference.editsFor] at he
  rw [insertAfter_mem_finish hfresh (.inl rfl)]
  simp only [hresolved, or_false]
  constructor
  · exact fun he => List.mem_flatMap.mpr ⟨_, he, List.mem_singleton_self pos⟩
  · intro hp
    obtain ⟨ev, hev, hp⟩ := List.mem_flatMap.mp hp
    cases ev with
    | edit e =>
      cases e with
      | insertAfter pos' text =>
        obtain rfl := List.mem_singleton.mp hp
        rcases hlaid.edit_forms hev with ⟨_, _, heq⟩ | ⟨leaf, wrapFn, hmem⟩
        · cases heq
        · obtain rfl : text = ")" := by
            cases leaf <;> simp [Leaf.edits] at hmem <;> exact hmem.2
          exact hev
      | _ => cases hp
    | _ => cases hp

/-- Wrapped are the leaves that the visits wrap. -/
theorem closes_iff (hroot : Rooted ps) {p : Nat} : p ∈ closesOf (expand ps) ↔
    ∃ s v, Visits ps s v ∧ ∃ leaf ∈ v.wrapped s, leaf.span.hi = p := by
  have hown {s : Setting} {v : Visit} : (∃ ev, .event ev ∈ v.pieces s ∧ p ∈ ev.closes) ↔
      ∃ leaf ∈ v.wrapped s, leaf.span.hi = p := by
    have hclosed : (∃ leaf ∈ v.wrapped s, leaf.span.hi = p) ↔ p ∈ closesOf (v.own s) := by
      rw [(own_wraps v).closes]
      simp
    rw [hclosed, pieces_eq]
    constructor
    · rintro ⟨ev, hev, hp⟩
      rcases List.mem_append.mp hev with hev | hev
      · exact List.mem_flatMap.mpr ⟨ev, event_mem_events.mp hev, hp⟩
      · rcases rest_event hev with ⟨m, rfl⟩ | ⟨place, name, rfl⟩ <;> cases hp
    · intro hp
      obtain ⟨ev, hev, hp⟩ := List.mem_flatMap.mp hp
      exact ⟨ev, List.mem_append_left _ (event_mem_events.mpr hev), hp⟩
  have hframe {ev : Event} (hp : p ∈ ev.closes) : ev.isFrame = false := by
    cases ev <;> first | rfl | cases hp
  simp only [← hown]
  constructor
  · intro hp
    obtain ⟨ev, hev, hp⟩ := List.mem_flatMap.mp hp
    obtain ⟨s, v, hv, hev⟩ := ((mem_expand_iff (hframe hp)).mp hev).resolve_left (hroot.quiet ev)
    exact ⟨s, v, hv, ev, hev, hp⟩
  · rintro ⟨s, v, hv, ev, hev, hp⟩
    exact List.mem_flatMap.mpr ⟨ev, (mem_expand_iff (hframe hp)).mpr (.inr ⟨s, v, hv, hev⟩), hp⟩

theorem reference_unique (hfresh : Fresh r base) (hroot : Rooted ps) {ref ref' : Reference}
    (href : ref ∈ (r.steps source (expand ps)).references)
    (href' : ref' ∈ (r.steps source (expand ps)).references)
    (hhi : ref.span.hi = ref'.span.hi) : ref = ref' :=
  List.inj_on_of_nodup_map (references_once hfresh hroot).2 href href' hhi

/-- The name at the head of an expression is a reference. -/
theorem reference_of_head (r : Run) (source : List Char) {id : Ident} {s : Setting}
    {chain : List Span} {settled : Bool} {e : Expr}
    (hv : Visits ps s (.expr chain settled e)) (hhead : e.head? = some id) :
    ∃ ref ∈ (r.steps source (expand ps)).references, ref.name = id.name ∧ ref.span = id.span ∧
      e.span ∈ id.span :: ref.chain := by
  obtain ⟨chain', settled', hname, _, hspan⟩ := name_of_head hv hhead
  have hmention : .event (mention s { id, chain := chain' }) ∈
      Visit.pieces s (.expr chain' settled' (.name id)) :=
    List.mem_append_left _ (List.mem_cons_self ..)
  obtain ⟨ref, href, hrefname, hrefspan, hrefchain, _⟩ :=
    reference_of_mention ((mem_expand_iff rfl).mpr (.inr ⟨s, _, hname, hmention⟩))
  exact ⟨ref, href, hrefname, hrefspan, hrefchain ▸ hspan⟩

/-- The chain of a reference holds the spans of the expressions whose head it is. -/
theorem chain_iff (hfresh : Fresh r base) (hroot : Rooted ps) {ref : Reference}
    (href : ref ∈ (r.steps source (expand ps)).references) (a : Span) :
    a ∈ ref.span :: ref.chain ↔ a = ref.span ∨ Heads ps ⟨ref.name, ref.span⟩ a := by
  constructor
  · intro ha
    rcases List.mem_cons.mp ha with ha | ha
    · exact .inl ha
    · obtain ⟨m, hm, ⟨hname, hspan, hchain, _⟩, _⟩ := mention_of_reference hfresh href
      obtain ⟨s, v, hv, hm⟩ := ((mem_expand_iff rfl).mp hm).resolve_left (hroot.quiet _)
      rw [hchain] at ha
      rw [pieces_eq, List.mem_append] at hm
      rcases hm with hm | hm
      · have := (own_wraps v).names _ (event_mem_events.mp hm)
        simp [Event.names] at this
      · rcases mention_cases hm with ⟨chain, settled, id, rfl, rfl⟩ | ⟨_, _, _, _, rfl, rfl⟩ |
          ⟨_, rfl, rfl⟩ | ⟨_, rfl, rfl⟩ | ⟨_, _, rfl, rfl⟩
        · rw [hname, hspan]
          exact .inr (heads_of_chain hroot.unchained hv rfl ha)
        all_goals cases ha
  · rintro (rfl | ⟨s, chain, settled, e, hv, hhead, rfl⟩)
    · exact List.mem_cons_self ..
    · obtain ⟨ref', href', _, hspan', hchain'⟩ := reference_of_head r source hv hhead
      obtain rfl : ref' = ref := reference_unique hfresh hroot href' href (by rw [hspan'])
      exact hchain'

/-- A value is appended to a reference exactly if its class asks for one. -/
theorem value_mem_iff_needsValue (hfresh : Fresh r base) (hroot : Rooted ps) {ref : Reference}
    (href : ref ∈ (r.steps source (expand ps)).references) :
    .insertAfter (base + ref.span.hi) ".value" ∈
        ((r.steps source (expand ps)).finish o).edits.edits ↔
      ((r.steps source (expand ps)).classOf o ref).needsValue = true := by
  obtain ⟨S, L, hlaid⟩ := hroot.laid
  have hevent : .edit (.insertAfter ref.span.hi ".value") ∉ expand ps := by
    intro hev
    rcases hlaid.edit_forms hev with ⟨_, _, heq⟩ | ⟨leaf, wrapFn, hmem⟩
    · cases heq
    · cases leaf <;> simp [Leaf.edits] at hmem
  rw [insertAfter_mem_finish hfresh (.inr rfl)]
  simp only [hevent, false_or, Run.resolved, List.mem_flatMap, needsValue_iff]
  constructor
  · rintro ⟨ref', href', hhi, hneeds⟩
    obtain rfl : ref' = ref := reference_unique hfresh hroot href' href hhi
    exact hneeds
  · exact fun hneeds => ⟨ref, href, rfl, hneeds⟩

/-- How the insertions among the edits of a unit lie, by its pieces and its run. -/
structure InsertionsApart (o : Options) (ps : List Piece) (base : Nat) (run : Run)
    (edits : List Edit) : Prop where
  /-- At no offset two keys or wrappings open. -/
  openings : (edits.flatMap Edit.openings).Nodup
  /-- At no offset two values or wrappings end. -/
  closings : (edits.flatMap Edit.closings).Nodup
  /-- Wrapped is what the visits ask for. -/
  wrapped : ∀ pos, .insertAfter (base + pos) ")" ∈ edits ↔
    ∃ s v, Visits ps s v ∧ ∃ leaf ∈ v.wrapped s, leaf.span.hi = pos
  /-- A call of `$$` is not wrapped. -/
  explicit : ∀ s chain settled span callee args, isExplicitCallee callee = true →
    Visits ps s (.expr chain settled (.call span .plain callee args)) →
    .insertAfter (base + span.hi) ")" ∉ edits
  /-- A name gets no value if an expression whose head it is is meant as a reference. -/
  heads : ∀ id a, Heads ps id a → Explicit ps a →
    .insertAfter (base + id.span.hi) ".value" ∉ edits
  /-- Nothing else keeps a reference that is to be unwrapped from getting its value. -/
  values : ∀ ref ∈ run.references,
    (.insertAfter (base + ref.span.hi) ".value" ∈ edits ↔
      ref.isActive run.scopes.leave o.resolution = true ∧ ref.isExempt = false ∧
        ¬ Explicit ps ref.span ∧ ∀ a, Heads ps ⟨ref.name, ref.span⟩ a → ¬ Explicit ps a)

/-- Both parts of a wrapping, keys and values are all put at places of their own. -/
theorem insertionsApart (o : Options) (source : List Char) (hfresh : Fresh r base) (hroot : Rooted ps) :
    InsertionsApart o ps base (r.steps source (expand ps))
      ((r.steps source (expand ps)).finish o).edits.edits where
  openings := openings_nodup hfresh hroot
  closings := closings_nodup hfresh hroot
  wrapped := fun pos => by rw [wrapping_mem_iff hfresh hroot, closes_iff hroot]
  explicit := by
    intro s chain settled span callee args hexplicit hv
    obtain ⟨S, L, hwoven⟩ := hroot.woven
    rw [wrapping_mem_iff hfresh hroot]
    exact (hwoven.call_shut span ⟨s, chain, settled, callee, args, hv, hexplicit⟩).1
  heads := by
    rintro id a ⟨s, chain, settled, e, hv, hhead, rfl⟩ hexplicit
    obtain ⟨ref, href, _, hspan, hchain⟩ := reference_of_head r source hv hhead
    rw [← hspan, value_mem_iff_needsValue hfresh hroot href, classOf_needsValue_iff]
    rintro ⟨_, hmarked, _⟩
    exact hmarked e.span (hspan ▸ hchain) ((marked_iff hfresh hroot).mpr hexplicit)
  values := by
    intro ref href
    rw [value_mem_iff_needsValue hfresh hroot href, classOf_needsValue_iff]
    simp only [chain_iff hfresh hroot href, marked_iff hfresh hroot, or_imp, forall_and, forall_eq]
    tauto

end Units

/-- The statements of a script are the pieces of a unit. -/
theorem rooted_script (o : Options) {source : List Char} {stmts : List Stmt}
    (hnested : NestedIn source stmts) (hcovered : ∀ st ∈ stmts, Node.Covered (.stmt st)) :
    Rooted (scriptPieces o source stmts) where
  quiet := fun ev => by simp [scriptPieces]
  unchained := fun s chain settled e h => absurd h expr_not_mem_stmtPieces
  woven := by
    refine ⟨_, _, woven_pieces ?_ ?_ ?_⟩
    · simpa [scriptPieces] using hnested.apart
    · intro ev hev
      simp [scriptPieces] at hev
    · intro s v hv
      obtain ⟨st, hst, heq⟩ := List.mem_map.mp hv
      cases heq
      exact (settled_visit (setting o source) (.stmt st) (hnested.nested st hst) (hcovered st hst)
        (List.pairwise_singleton _ _)).woven
  laid := ⟨_, _, by simpa [scriptPieces] using laid_carelessly (s := setting o source) hnested⟩

/-- So is a lone expression, which is walked as a statement of its own would be. -/
theorem rooted_expression (o : Options) {source : List Char} {e : Expr}
    (hnested : Node.Nested (.expr e)) (hwithin : e.span.hi ≤ Text.width source)
    (hcovered : Node.Covered (.expr e)) : Rooted (values (setting o source) [e]) where
  quiet := fun ev => by simp
  unchained := by
    intro s chain settled e' h
    obtain ⟨_, _, _, heq⟩ := part_mem_values.mp h
    cases heq
    rfl
  woven := by
    refine ⟨_, _, woven_pieces ?_ ?_ ?_⟩
    · simp
    · simp
    · intro s v hv
      obtain ⟨rfl, e', he', rfl⟩ := part_mem_values.mp hv
      obtain rfl := List.mem_singleton.mp he'
      exact (settled_visit _ (.expr [] false e') hnested hcovered (List.pairwise_singleton _ _)).woven
  laid := by
    have hstmt : NestedIn source [.expr e.span e] := by
      refine ⟨List.pairwise_singleton _ _, ?_, ?_⟩
      · simpa [Stmt.extent, Stmt.span] using hwithin
      · intro st hst
        obtain rfl := List.mem_singleton.mp hst
        refine .mk (Span.holds_iff.mpr ⟨Nat.le_refl _, Nat.le_refl _⟩) fun c hc => ?_
        obtain rfl : c = .expr e := by simpa [Node.children, Node.ofStmt] using hc
        exact hnested
    exact ⟨_, _, by simpa [traceStmts, traceStmt, traceExprs] using
      laid_carelessly (s := setting o source) hstmt⟩

/-- Wrapping and unwrapping do not collide, however names are resolved, neither in a script nor in a
lone expression. A reference gets its value and its key at most once, and what is wrapped is wrapped
once; a call of `$$` is not wrapped. A name gets no value if an expression whose head it is is meant as
a reference; this is a matter of these expressions only, and not of those in which it stands as an
argument or in a computed key. Expressions may be empty, as the operand is that is put in for a missing
one; only a call by keyword, which has nothing in front of its arguments, is asked to cover text. -/
theorem insertions_apart (o : Options) (source : List Char) :
    (∀ session base stmts, NestedIn source stmts → (∀ st ∈ stmts, Node.Covered (.stmt st)) →
      InsertionsApart o (scriptPieces o source stmts) base (scriptRun o session base source stmts)
        (script o session base source stmts).edits.edits) ∧
    ∀ unwraps e, Node.Nested (.expr e) → e.span.hi ≤ Text.width source → Node.Covered (.expr e) →
      InsertionsApart o (values (setting o source) [e]) 0
        ((seeded unwraps).steps source (traceExpr (setting o source) [] false e))
        (expression o unwraps source e).edits.edits := by
  refine ⟨fun session base stmts hnested hcovered => ?_,
    fun unwraps e hnested hwithin hcovered => ?_⟩
  · have hfresh : Fresh (.start base .program session) base := ⟨rfl, rfl, rfl⟩
    have happart := insertionsApart o source hfresh (rooted_script o hnested hcovered)
    rwa [scriptPieces, expand_stmtPieces] at happart
  · have hfresh : Fresh (seeded unwraps) 0 := ⟨rfl, rfl, rfl⟩
    have happart := insertionsApart o source hfresh (rooted_expression o hnested hwithin hcovered)
    rwa [expand_values, traceExprs, traceExprs, List.append_nil] at happart

/-- A script that wraps the arguments of a call: one that is a call of `$$`, a member of an object that
is both key and value, and a call whose head and argument are to be unwrapped. -/
def wrappedText : List Char :=
  "let a = $b(); f$($$(a), { a }, a.c(a)); a".toList

def wrappedCall : Expr :=
  .call ⟨31, 37⟩ .plain (.field ⟨31, 34⟩ .plain (.name ⟨"a", ⟨31, 32⟩⟩)) [.one (.name ⟨"a", ⟨35, 36⟩⟩)]

def explicitCall : Expr :=
  .call ⟨17, 22⟩ .plain (.name ⟨"$$", ⟨17, 19⟩⟩) [.one (.name ⟨"a", ⟨20, 21⟩⟩)]

def wrappedArgs : List Item :=
  [.one explicitCall, .one (.object ⟨24, 29⟩ [.shorthand ⟨"a", ⟨26, 27⟩⟩]), .one wrappedCall]

def wrappingCall : Expr :=
  .call ⟨14, 38⟩ .plain (.name ⟨"f$", ⟨14, 16⟩⟩) wrappedArgs

def wrappedStmts : List Stmt :=
  [.vars ⟨0, 13⟩ .lexical [.mk ⟨4, 12⟩ (.name ⟨"a", ⟨4, 5⟩⟩)
      (some (.call ⟨8, 12⟩ .plain (.name ⟨"$b", ⟨8, 10⟩⟩) []))],
    .expr ⟨14, 39⟩ wrappingCall, .expr ⟨40, 41⟩ (.name ⟨"a", ⟨40, 41⟩⟩)]

/-- Wrappings inside of each other, a key, and a value, at distinct places. -/
theorem insertions_apart_wrapped :
    NestedIn wrappedText wrappedStmts ∧ (∀ st ∈ wrappedStmts, Node.Covered (.stmt st)) ∧
      ((script {} {} 0 wrappedText wrappedStmts).edits.edits.flatMap openings).Nodup ∧
      ((script {} {} 0 wrappedText wrappedStmts).edits.edits.flatMap closings).Nodup ∧
      (.insertAfter 37 ")" ∈ (script {} {} 0 wrappedText wrappedStmts).edits.edits ∧
        .insertAfter 22 ")" ∉ (script {} {} 0 wrappedText wrappedStmts).edits.edits) ∧
      .insertAfter 36 ".value" ∈ (script {} {} 0 wrappedText wrappedStmts).edits.edits ∧
        .insertAfter 32 ".value" ∉ (script {} {} 0 wrappedText wrappedStmts).edits.edits := by
  have hnested : NestedIn wrappedText wrappedStmts :=
    .of_check 9 (by decide +kernel) (by decide +kernel)
  have hcovered : ∀ st ∈ wrappedStmts, Node.Covered (.stmt st) := by
    have hall : (wrappedStmts.all fun st => Node.check Node.coversText 9 (.stmt st)) = true := by
      decide +kernel
    exact fun st hst => Node.everywhere_of_check (List.all_eq_true.mp hall st hst)
  have happart := (insertions_apart {} wrappedText).1 {} 0 wrappedStmts hnested hcovered
  have hcall : Visits (scriptPieces {} wrappedText wrappedStmts) (setting {} wrappedText)
      (.expr [] false wrappingCall) :=
    .further (List.mem_cons_of_mem _ (List.mem_cons_self ..)) (.here (List.mem_cons_self ..))
  have harg {e : Expr} (he : e ∈ wrappedArgs.filterMap Item.expr?) :
      Visits (scriptPieces {} wrappedText wrappedStmts) (setting {} wrappedText)
        (.expr [] false e) :=
    hcall.part (List.mem_append_left _ (List.mem_append_right _
      (List.mem_cons_of_mem _ (List.mem_map_of_mem he))))
  refine ⟨hnested, hcovered, happart.openings, happart.closings, ⟨by decide +kernel, ?_⟩,
    by decide +kernel, ?_⟩
  · exact happart.explicit _ _ _ ⟨17, 22⟩ (.name ⟨"$$", ⟨17, 19⟩⟩) _ (by decide +kernel)
      (harg (List.mem_cons_self ..))
  · refine happart.heads ⟨"a", ⟨31, 32⟩⟩ ⟨31, 37⟩ ⟨_, _, _, wrappedCall, harg ?_, rfl, rfl⟩ ?_
    · exact List.mem_cons_of_mem _ (List.mem_cons_of_mem _ (List.mem_cons_self ..))
    · exact ⟨_, _, hcall, by decide +kernel⟩

end Walk

end RefSugar

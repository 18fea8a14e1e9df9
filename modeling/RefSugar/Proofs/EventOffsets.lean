import RefSugar.Proofs.Triggers

/-! The offsets that a walk speaks of. Where the text may be cut around the names and expressions of
a tree, it may be cut at every offset that an event of a walk over the tree edits. -/
namespace RefSugar.Walk

open Syntax

structure Event.Cut (ok : Nat → Prop) (ev : Event) : Prop where
  ranges : ∀ a ∈ ev.ranges, ok a.lo ∧ ok a.hi
  points : ∀ p ∈ ev.points, ok p

section Cuts

variable {ok : Nat → Prop} {s : Setting}

abbrev CutNode (ok : Nat → Prop) (n : Node) : Prop :=
  Node.Everywhere Node.children (CutsAt ok) n

theorem Event.Cut.of_quiet {ev : Event} (h : ev.isQuiet = true) : ev.Cut ok := by
  refine ⟨?_, ?_⟩
  · rw [Event.ranges_of_quiet h]
    simp
  · rw [Event.points_of_quiet h]
    simp

theorem cut_mention {m : Mention} (h : CutsName ok m.id) : (mention s m).Cut ok :=
  ⟨by simp [mention, Event.ranges], by simp [mention, Event.points, h.1, h.2.1]⟩

def Leaf.Cut (ok : Nat → Prop) (leaf : Leaf) : Prop :=
  ok leaf.span.lo ∧ ok leaf.span.hi

def LeavesCut (ok : Nat → Prop) : Node → Prop
  | .expr e => ∀ leaf ∈ leaves e, leaf.Cut ok
  | .item i => ∀ leaf ∈ itemLeaves [i], leaf.Cut ok
  | .property p => ∀ leaf ∈ propertyLeaves [p], leaf.Cut ok
  | .stmt st => ∀ leaf ∈ returnLeaves [st], leaf.Cut ok
  | .func (.mk _ _ body) => ∀ leaf ∈ returnLeaves body, leaf.Cut ok
  | _ => True

theorem itemLeaves_cut {items : List Item} (h : ∀ i ∈ items, LeavesCut ok (.item i)) :
    ∀ leaf ∈ itemLeaves items, leaf.Cut ok := by
  rw [itemLeaves_eq]
  intro leaf hleaf
  obtain ⟨i, hi, hleaf⟩ := List.mem_flatMap.mp hleaf
  exact h i hi leaf hleaf

theorem returnLeaves_cut {stmts : List Stmt} (h : ∀ st ∈ stmts, LeavesCut ok (.stmt st)) :
    ∀ leaf ∈ returnLeaves stmts, leaf.Cut ok := by
  rw [returnLeaves_eq]
  intro leaf hleaf
  obtain ⟨st, hst, hleaf⟩ := List.mem_flatMap.mp hleaf
  exact h st hst leaf hleaf

/-- Leaves may be wrapped where the text may be cut around the expressions they stand in. -/
theorem leaves_cut {e : Expr} (hhere : CutsAt ok (.expr e))
    (hparts : ∀ c ∈ (Node.expr e).children, LeavesCut ok c) : LeavesCut ok (.expr e) := by
  have hwhole {span : Span} (h : ok span.lo ∧ ok span.hi) :
      ∀ leaf ∈ [Leaf.whole span], leaf.Cut ok := by
    intro leaf hleaf
    rw [List.mem_singleton.mp hleaf]
    exact h
  rw [LeavesCut]
  cases e with
  | name id => exact hwhole ⟨hhere.1, hhere.2.1⟩
  | field span link object | index span link object key | keywordCall span args =>
    exact hwhole hhere
  | call span link callee args =>
    rw [leaves]
    split
    · simp
    · exact hwhole hhere
  | wrapped span kind inner =>
    rw [leaves]
    split
    · rename_i hkind
      subst hkind
      exact hwhole hhere
    · exact hparts (.expr inner) (by simp)
  | array span items => exact itemLeaves_cut fun i hi => hparts (.item i) (by simp [hi])
  | object span properties =>
    rw [leaves, propertyLeaves_eq]
    intro leaf hleaf
    obtain ⟨p, hp, hleaf⟩ := List.mem_flatMap.mp hleaf
    exact hparts (.property p) (by simp [hp]) leaf hleaf
  | function span name fn =>
    obtain ⟨decorators, params, body⟩ := fn
    exact hparts (.func (.mk decorators params body)) (by simp)
  | arrow span params body => exact returnLeaves_cut fun st hst => hparts (.stmt st) (by simp [hst])
  | arrowTo span params result => exact hparts (.expr result) (by simp)
  | _ => simp [leaves]

/-- Where the text may be cut around all names and expressions, the leaves may be wrapped. -/
theorem leavesCut_of_cutNode {n : Node} (h : CutNode ok n) : LeavesCut ok n := by
  induction h with
  | @mk n hhere _ ih =>
    cases n with
    | expr e => exact leaves_cut hhere ih
    | item i =>
      cases i with
      | hole | spread e => simp [LeavesCut, itemLeaves]
      | one e => simpa [LeavesCut, itemLeaves] using ih (.expr e) (by simp [Item.expr?])
    | property p =>
      cases p with
      | shorthand id =>
        simpa [LeavesCut, propertyLeaves, Leaf.Cut, Leaf.span] using And.intro hhere.1 hhere.2.1
      | pair key value => simpa [LeavesCut, propertyLeaves] using ih (.expr value) (by simp)
      | _ => simp [LeavesCut, propertyLeaves]
    | stmt st =>
      cases st with
      | ret span value =>
        cases value with
        | none => simp [LeavesCut, returnLeaves]
        | some e => simpa [LeavesCut, returnLeaves] using ih (.expr e) (by simp)
      | _ => simp [LeavesCut, returnLeaves]
    | func f =>
      obtain ⟨decorators, params, body⟩ := f
      exact returnLeaves_cut fun st hst => ih (.stmt st) (by simp [hst])
    | _ => trivial

theorem edits_cut {leaf : Leaf} (h : leaf.Cut ok) {wrapFn : String} {e : Edit}
    (he : e ∈ leaf.edits wrapFn) : Event.Cut ok (.edit e) := by
  obtain ⟨hlo, hhi⟩ := h
  have hends : e.ranges = [] ∧ e.points ⊆ [leaf.span.lo, leaf.span.hi] := by
    cases leaf <;>
      rcases (by simpa [Leaf.edits] using he : _ ∨ _) with rfl | rfl <;> simp [Leaf.span]
  refine ⟨fun a ha => ?_, fun p hp => ?_⟩
  · rw [Event.ranges, hends.1] at ha
    cases ha
  · have hp : p = leaf.span.lo ∨ p = leaf.span.hi := by simpa using hends.2 hp
    rcases hp with rfl | rfl
    · exact hlo
    · exact hhi

/-- What a visit wraps may be cut out of the text. -/
theorem wrapped_cut {v : Visit} (h : CutNode ok v.node) : ∀ leaf ∈ v.wrapped s, leaf.Cut ok := by
  unfold Visit.wrapped
  split
  · split
    · simp
    · split
      · exact itemLeaves_cut fun i hi => leavesCut_of_cutNode (h.child (by simp [hi]))
      · simp
  · split
    · rename_i span name decorators params body _
      have hfn : CutNode ok (.func (.mk decorators params body)) := h.child (by simp)
      exact leavesCut_of_cutNode hfn
    · simp
  · split
    · rename_i place span id init _
      have hinit : CutNode ok (.expr init) := h.child (by simp)
      exact leavesCut_of_cutNode hinit
    · simp
  · split
    · rename_i id e _
      have hvalue : CutNode ok (.expr e) := h.child (by simp)
      exact leavesCut_of_cutNode hvalue
    · simp
  · simp

/-- So may the names that it mentions. -/
theorem mentioned_cut {v : Visit} (h : CutNode ok v.node) {id : Ident} (hid : id ∈ v.mentioned) :
    CutsName ok id := by
  unfold Visit.mentioned at hid
  split at hid
  · exact List.mem_singleton.mp hid ▸ h.here
  · rename_i found
    have hname : CutNode ok (.expr (.name found)) := h.child (by simp)
    exact List.mem_singleton.mp hid ▸ hname.here
  · exact List.mem_singleton.mp hid ▸ h.here
  · exact List.mem_singleton.mp hid ▸ h.here
  · exact List.mem_singleton.mp hid ▸ h.here
  · cases hid

theorem strips_cut {v : Visit} (h : CutNode ok v.node) {id : Ident} (hid : id ∈ v.strips) :
    ok (id.span.hi - 1) ∧ ok id.span.hi := by
  have hcut (hname : CutsName ok id) (hsigil : Sigil.isSigilName id.name = true) :
      ok (id.span.hi - 1) ∧ ok id.span.hi :=
    ⟨hname.2.2 (endsWithSigil_of_isSigilName hsigil), hname.2.1⟩
  rcases strips_cases hid with ⟨span, fn, rfl, hsigil⟩ | ⟨place, span, init, rfl, hsigil, _⟩ |
    ⟨value, rfl, hsigil⟩
  · exact hcut h.here hsigil
  · exact hcut h.here.2 hsigil
  · simp only [Sigil.isSigilAttribute, Bool.and_eq_true] at hsigil
    exact hcut h.here hsigil.1

section Triggers

variable (hok : ∀ p, Text.isBoundary p s.source = true → ok p)
include hok

/-- What a sigil gives rise to is done where the text may be cut. -/
theorem triggers_cut {v : Visit} (h : CutNode ok v.node) {ev : Event} (hev : v.Triggers s ev) :
    ev.Cut ok := by
  have hremove {lo hi : Nat} (hlo : ok lo) (hhi : ok hi) : Event.Cut ok (.edit (.remove lo hi)) :=
    ⟨by simpa [Event.ranges] using ⟨hlo, hhi⟩, by simp [Event.points]⟩
  cases hev with
  | mark span => exact .of_quiet rfl
  | unwrap place name => exact .of_quiet rfl
  | wrap hleaf he => exact edits_cut (wrapped_cut h _ hleaf) he
  | strip hid => exact hremove (strips_cut h hid).1 (strips_cut h hid).2
  | front hunwraps =>
    obtain ⟨hlo, hhi, _⟩ := boundaries_of_front (head_of_isUnwrapCall hunwraps.isUnwrapCall)
    exact hremove (hok _ hlo) (hok _ hhi)
  | back _ hwrap =>
    obtain ⟨hlo, hhi, _⟩ := boundaries_of_back (getLast_of_isAutoWrapCall hwrap)
    exact hremove (hok _ hlo) (hok _ hhi)
  | @erase callee _ hexplicit =>
    have htext : (s.text callee.span).toList = ['$', '$'] := by
      rw [eq_of_beq hexplicit]
      rfl
    obtain ⟨hlo, _, _⟩ := @boundaries_of_front s callee.span (by rw [htext]; rfl)
    obtain ⟨_, hhi, _⟩ := @boundaries_of_back s callee.span (by rw [htext]; rfl)
    exact hremove (hok _ hlo) (hok _ hhi)
  | @unpack place span target init plan hv hplan =>
    subst hv
    obtain ⟨hstop, htarget⟩ := h.here
    have hspan : ok plan.span.lo ∧ ok plan.span.hi := by
      rcases plan?_span hplan with ⟨fields, rfl⟩ | ⟨items, rfl⟩ <;> exact htarget
    exact ⟨by simpa [Event.ranges] using hspan, by simpa [Event.points] using hstop⟩

/-- What a visit does by itself it does where the text may be cut. -/
theorem visit_cut {v : Visit} (h : CutNode ok v.node) {ev : Event} (hev : .event ev ∈ v.pieces s) :
    ev.Cut ok := by
  rcases piece_event hev with ⟨m, rfl, hid⟩ | ⟨place, name, rfl⟩ | hev
  · exact cut_mention (mentioned_cut h hid)
  · exact .of_quiet rfl
  · exact triggers_cut hok h (triggers_of_mem hev)

/-- All events of a walk edit the text where it may be cut. -/
theorem trace_cut {v : Visit} (h : CutNode ok v.node) : ∀ ev ∈ v.trace s, ev.Cut ok := by
  intro ev hev
  rcases v.mem_trace s ev hev with ⟨kind, rfl⟩ | rfl | ⟨b, v', hreach, hev⟩
  · exact .of_quiet rfl
  · exact .of_quiet rfl
  · exact visit_cut (s := { s with isExempt := b }) hok (h.reached hreach) hev

end Triggers

end Cuts

end RefSugar.Walk

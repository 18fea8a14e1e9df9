import RefSugar.Proofs.ReadTypes
import RefSugar.Syntax.Patterns

/-! The readers of patterns and parameters keep their place, and so does taking an expression for
the pattern it turns out to be. -/
namespace RefSugar.Syntax.Patterns

variable {text : List Char} {α β : Type} {P : α → Prop} {Q : β → Prop}

/-- What the pure part of the grammar gives; its failures are told where the text can be cut. -/
def Gives (text : List Char) (P : α → Prop) : Except Fault α → Prop
  | .ok a => P a
  | .error fault => Cuts text fault.offset

theorem Gives.map {x : Except Fault α} {f : α → β} (h : Gives text P x) (hf : ∀ a, P a → Q (f a)) :
    Gives text Q (x.map f) := by
  cases x with
  | ok a => exact hf a h
  | error fault => exact h

theorem Gives.bind {x : Except Fault α} {f : α → Except Fault β} (h : Gives text P x)
    (hf : ∀ a, P a → Gives text Q (f a)) : Gives text Q (x >>= f) := by
  cases x with
  | ok a => exact hf a h
  | error fault => exact h

theorem reads_lift {x : Except Fault α} (h : Gives text P x) : Reads text P (lift x) := by
  cases x with
  | ok a => exact .pure h
  | error fault => exact fun _ _ hs => ⟨h, hs⟩

/-- An expression kept as it is, or dropped. -/
theorem kept_gives {use : Use} {e : Expr} (h : Sited text (.expr e)) :
    Gives text (SitedPattern text)
      (.ok (if use == .assigning && isElement e then .expr e else .invalid)) := by
  change Sited text (.pattern (if use == .assigning && isElement e then .expr e else .invalid))
  split
  · exact ⟨trivial, by simpa using h⟩
  · exact ⟨trivial, by simp⟩

mutual

/-- An expression that turns out to be a pattern keeps its names where they are. -/
theorem ofExpr_gives {use : Use} {e : Expr} (h : Sited text (.expr e)) :
    Gives text (SitedPattern text) (ofExpr use e) := by
  rw [ofExpr.eq_def]
  split
  · exact ⟨h.here, by simp⟩
  · exact (fieldsOf_gives (by simpa using h.all_parts)).map fun _ hfields => ⟨h.here, by simpa using hfields⟩
  · exact (itemsOf_gives (by simpa using h.all_parts)).map fun _ hps => ⟨h.here, by simpa using hps⟩
  · have hparts := h.all_parts
    simp only [Node.children, Node.ofExpr, List.mem_cons, List.not_mem_nil, or_false,
      forall_eq_or_imp, forall_eq] at hparts
    exact (ofTarget_gives hparts.1).bind fun p hp => ⟨trivial, by simpa using ⟨hp, hparts.2⟩⟩
  · exact kept_gives h
termination_by sizeOf e

theorem ofTarget_gives {use : Use} {p : Pattern} (h : Sited text (.pattern p)) :
    Gives text (SitedPattern text) (ofTarget use p) := by
  rw [ofTarget.eq_def]
  split
  · exact ofExpr_gives (by simpa using h.all_parts)
  · exact h
termination_by sizeOf p

theorem fieldOf_gives {use : Use} {p : Property} (h : Sited text (.property p)) :
    Gives text (fun f => Sited text (.field f)) (fieldOf use p) := by
  rw [fieldOf.eq_def]
  have hparts := h.all_parts
  split
  · exact ⟨h.here, by simp⟩
  · exact ⟨h.here, by simpa using hparts⟩
  · simp only [Node.children, Node.ofProperty, List.mem_cons, List.not_mem_nil, or_false,
      forall_eq_or_imp, forall_eq] at hparts
    exact (ofExpr_gives hparts.2).map fun _ hp => ⟨trivial, by simpa using ⟨hparts.1, hp⟩⟩
  · simp only [Node.children, Node.ofProperty, List.mem_cons, List.not_mem_nil, or_false,
      forall_eq] at hparts
    split
    · split
      · exact ⟨trivial, by simpa using ⟨hparts.here, by simp⟩⟩
      · exact ⟨trivial, by simpa using ⟨trivial, by simp⟩⟩
    · exact (ofExpr_gives hparts).map fun _ hp => ⟨trivial, by simpa using hp⟩
  · exact h.here
  · exact h.here
  · exact h.here
termination_by sizeOf p

theorem fieldsOf_gives {use : Use} {ps : List Property} (h : ∀ p ∈ ps, Sited text (.property p)) :
    Gives text (fun fs => ∀ f ∈ fs, Sited text (.field f)) (fieldsOf use ps) := by
  rw [fieldsOf.eq_def]
  split
  · simp [Gives]
  · rw [List.forall_mem_cons] at h
    exact (fieldOf_gives h.1).bind fun f hf => (fieldsOf_gives h.2).bind fun fs hfs =>
      List.forall_mem_cons.mpr ⟨hf, hfs⟩
termination_by sizeOf ps

theorem itemOf_gives {use : Use} {i : Item} (h : Sited text (.item i)) :
    Gives text (SitedPattern text) (itemOf use i) := by
  rw [itemOf.eq_def]
  split
  · exact ⟨trivial, by simp⟩
  · exact ofExpr_gives (by simpa [Item.expr?] using h.all_parts)
  · exact (ofExpr_gives (by simpa [Item.expr?] using h.all_parts)).map fun _ hp =>
      ⟨trivial, by simpa using hp⟩
termination_by sizeOf i

theorem itemsOf_gives {use : Use} {is : List Item} (h : ∀ i ∈ is, Sited text (.item i)) :
    Gives text (fun ps => ∀ p ∈ ps, Sited text (.pattern p)) (itemsOf use is) := by
  rw [itemsOf.eq_def]
  split
  · simp [Gives]
  · have hitem := (h _ (List.mem_cons_self ..)).all_parts
    exact (ofExpr_gives (by simpa [Item.expr?] using hitem)).bind fun p hp =>
      List.forall_mem_singleton.mpr ⟨trivial, by simpa using hp⟩
  · exact itemsOf_gives fun i hi => h i (List.mem_cons_of_mem _ hi)
  · rw [List.forall_mem_cons] at h
    split
    · simp [Gives, pure, Except.pure]
    · exact (itemOf_gives h.1).bind fun p hp => (itemsOf_gives h.2).bind fun ps hps =>
        List.forall_mem_cons.mpr ⟨hp, hps⟩
termination_by sizeOf is

end

theorem loopTarget_gives {e : Expr} (h : Sited text (.expr e)) :
    Gives text (SitedPattern text) (loopTarget e) := by
  unfold loopTarget
  split
  · exact ofExpr_gives h
  · exact ofExpr_gives h
  · exact ⟨h.here, by simp⟩
  · exact ⟨trivial, by simpa using h⟩

theorem assignmentTarget_gives {plain : Bool} {e : Expr} (h : SitedExpr text e) :
    Gives text (SitedPattern text) (assignmentTarget plain e) := by
  unfold assignmentTarget
  extract_lets isPattern
  split
  · exact loopTarget_gives h.2
  · exact h.1

theorem restIsName_gives : ∀ {fields : List (PatternField × Nat)}, (∀ f ∈ fields, Cuts text f.2) →
    Gives text (fun _ => True) (restIsName fields) := by
  intro fields h
  fun_induction restIsName fields with
  | case1 => trivial
  | case2 => trivial
  | case3 => exact h _ (List.mem_singleton_self _)
  | case4 _ _ _ _ ih => exact ih fun f hf => h f (List.mem_cons_of_mem _ hf)

theorem keeps_ambientMark : Keeps text ambientMark := by
  refine keeps_read.bind fun _ _ => ?_
  split
  · exact keeps_accept.seq <| .pure trivial
  · exact .pure trivial

theorem keeps_optionalMark {target : Pattern} (htarget : Sited text (.pattern target)) :
    Keeps text (optionalMark target) := by
  refine reads_here.bind fun lo hlo => keeps_accept.bind fun _ _ => ?_
  split
  · split
    · refine keeps_read.bind fun _ _ => ?_
      split
      · exact .pure trivial
      · exact reads_failAt hlo
    · exact .pure trivial
  · exact .pure trivial

section Grammar

variable {g : Grammar} (hg : g.Sited text)
include hg

theorem reads_bindingElement :
    Reads text (SitedPattern text) (bindingElement g) := by
  refine hg.binding.bind fun target htarget => keeps_accept.bind fun _ _ => ?_
  split
  · exact hg.assignment.allowIn.bind fun b hb => .pure ⟨trivial, by simp [htarget, hb.2]⟩
  · exact .pure htarget

theorem reads_arrayItem : ReadsAny text (SitedPattern text) (arrayItem g) := by
  refine keeps_isAt.bind fun _ _ => ?_
  split
  · exact .pure (by simp)
  · refine keeps_accept.bind fun _ _ => ?_
    split
    · exact .pure (by simpa using ⟨trivial, by simp⟩)
    · refine keeps_accept.bind fun _ _ => ?_
      extract_lets -underBinder rest
      have hrest : ∀ u, Sited text (.pattern u) → ReadsAny text (SitedPattern text) (rest u) := by
        intro item hitem
        refine keeps_isAt.bind fun _ _ => ?_
        extract_lets -underBinder more
        have hmore u : ReadsAny text (SitedPattern text) (more u) :=
          .pure (by simpa using hitem)
        clear_value more
        split
        · exact hmore _
        · exact keeps_expect.seq <| hmore _
      clear_value rest
      split
      · exact hg.binding.bind fun b hb => hrest _ ⟨trivial, by simp [hb]⟩
      · exact (reads_bindingElement hg).bind fun item hitem => hrest _ hitem

theorem reads_arrayPattern : Reads text (SitedPattern text) (arrayPattern g) :=
  reads_here.bind fun lo hlo => keeps_expect.seq <|
    (reads_arrayItem hg).collect.bind fun items hitems => keeps_expect.seq <|
    (reads_spanFrom hlo).bind fun span hspan => keeps_ambientMark.seq <|
    .pure ⟨hspan.2, by simp +contextual [hitems]⟩

theorem reads_objectField : Reads text (fun f => Sited text (.field f)) (objectField g) := by
  refine keeps_accept.bind fun _ _ => ?_
  split
  · exact hg.binding.bind fun b hb => .pure ⟨trivial, by simp [hb]⟩
  · refine hg.key.bind fun key hkey => keeps_accept.bind fun _ _ => ?_
    split
    · exact (reads_bindingElement hg).bind fun b hb => .pure ⟨trivial, by simp [hkey.2, hb]⟩
    · split
      · have hid := hkey.1 _ rfl
        refine keeps_accept.bind fun _ _ => ?_
        split
        · exact hg.assignment.allowIn.bind fun b hb => .pure ⟨hid, by simp [hb.2]⟩
        · exact .pure ⟨hid, by simp⟩
      · exact reads_unexpected

theorem reads_objectPattern : Reads text (SitedPattern text) (objectPattern g) := by
  refine Reads.within (reads_here.bind fun lo hlo => keeps_expect.bind fun _ _ => ?_)
  have hfield : Reads text (fun r => Sited text (.field r.1) ∧ Cuts text r.2) (do
      let start ← here
      return (← objectField g, start)) :=
    reads_here.bind fun _ hstart => (reads_objectField hg).bind fun _ hf => .pure ⟨hf, hstart⟩
  refine hfield.commaList.bind fun fields hfields => keeps_expect.seq <|
    (reads_spanFrom hlo).bind fun span hspan =>
    (reads_lift (restIsName_gives fun f hf => (hfields f hf).2)).seq <|
    keeps_ambientMark.seq <| .pure ⟨hspan.2, ?_⟩
  intro c hc
  obtain ⟨f, hf, rfl⟩ : ∃ f ∈ fields, Node.field f.1 = c := by simpa using hc
  exact (hfields f hf).1

theorem reads_bindingWith {name : Reader Ident} (hname : Reads text (Spelled text) name) :
    Reads text (SitedPattern text) (bindingWith g name) := by
  refine keeps_checkToken.seq <| reads_token.bind fun _ _ => ?_
  split
  · exact reads_arrayPattern hg
  · split
    · exact reads_objectPattern hg
    · split
      · exact hname.bind fun _ hid => .pure ⟨hid, by simp⟩
      · exact reads_unexpected

theorem reads_binding : Reads text (SitedPattern text) (binding g) :=
  reads_bindingWith hg reads_properName

theorem reads_paramPattern : Reads text (SitedPattern text) (paramPattern g) := by
  refine keeps_skipParamModifier.seq <|
    (reads_bindingElement hg).bind fun target htarget => keeps_read.bind fun _ _ => ?_
  extract_lets -underBinder rest
  have hrest u : Reads text (SitedPattern text) (rest u) := by
    refine keeps_accept.bind fun _ _ => ?_
    split
    · exact hg.assignment.bind fun b hb => .pure ⟨trivial, by simp [htarget, hb.2]⟩
    · exact .pure htarget
  clear_value rest
  split
  · exact (keeps_optionalMark htarget).seq <|
      (Types.keeps_annotated hg).seq <| hrest _
  · exact hrest _

theorem reads_restParam : Reads text (SitedPattern text) (restParam g) := by
  refine hg.binding.bind fun target htarget => keeps_accept.bind fun _ _ => ?_
  extract_lets -underBinder rest
  have hrest : ∀ u, Sited text (.pattern u) → Reads text (SitedPattern text) (rest u) := by
    intro target htarget
    exact (Types.keeps_annotated hg).seq <|
      (keeps_whenTyped keeps_accept).seq <| .pure ⟨trivial, by simp [htarget]⟩
  clear_value rest
  split
  · exact hg.assignment.bind fun b hb => hrest _ ⟨trivial, by simp [htarget, hb.2]⟩
  · exact hrest _ htarget

/-- Parameters, each with its decorators. -/
theorem reads_paramList {pattern dots : Reader Pattern}
    (hpattern : Reads text (SitedPattern text) pattern)
    (hdots : Reads text (SitedPattern text) dots) :
    ReadsAll text (fun p => Sited text (.param p)) (paramList g pattern dots) := by
  refine Reads.collect (keeps_isAt.bind fun _ _ => ?_)
  split
  · exact .pure (by simp)
  · refine (hg.decorators _).bind fun decorators hdecorators => keeps_accept.bind fun _ _ => ?_
    extract_lets -underBinder rest
    have hrest : ∀ target, Sited text (.pattern target) →
        ReadsAny text (fun p => Sited text (.param p)) (rest target) := by
      intro target htarget
      have hparam : Sited text (.param (.mk decorators target)) :=
        ⟨trivial, by simp +contextual [or_imp, hdecorators, htarget]⟩
      refine keeps_isAt.bind fun _ _ => ?_
      split
      · exact .pure (by simpa using hparam)
      · exact keeps_expect.seq <| .pure (by simpa using hparam)
    clear_value rest
    split
    · exact hdots.bind fun target htarget => hrest _ htarget
    · exact hpattern.bind fun target htarget => hrest _ htarget

theorem reads_params : ReadsAll text (fun p => Sited text (.param p)) (params g) :=
  reads_paramList hg (reads_paramPattern hg) (reads_restParam hg)

end Grammar

end RefSugar.Syntax.Patterns

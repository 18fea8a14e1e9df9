import RefSugar.Proofs.LeafSpans
import RefSugar.Proofs.Weaving

/-! What wrapping does. A run issues two insertions for each part and marks it. Where the parts of a
well-nested expression are wrapped, the text of each is replaced by a call with it, and all other
text is kept. -/
namespace RefSugar.Walk

open Syntax

def Leaf.opening (wrapFn : String) : Leaf → String
  | whole _ => wrapFn ++ "("
  | shorthand id => id.name ++ ": " ++ wrapFn ++ "("

def wrapEdits (wrapFn : String) (parts : List Leaf) : List Edit :=
  parts.flatMap fun leaf =>
    [.insertBefore leaf.span.lo (leaf.opening wrapFn), .insertAfter leaf.span.hi ")"]

theorem Leaf.opening_filled (wrapFn : String) (leaf : Leaf) :
    (leaf.opening wrapFn).isEmpty = false := by
  cases leaf <;> simp [Leaf.opening]

/-- Wrapping issues the edits of its parts and marks them, and does nothing else. -/
theorem steps_wrap (source : List Char) (wrapFn : String) (parts : List Leaf) (r : Run)
    (horigin : r.emitter.origin = 0) :
    r.steps source (wrap wrapFn parts) =
      { r with
        emitter := { r.emitter with
          edits := r.emitter.edits.append
            ⟨(wrapEdits wrapFn parts).map (Edit.shift r.emitter.base)⟩ }
        marked := r.marked ++ parts.map Leaf.span } := by
  induction parts generalizing r with
  | nil => simp [wrap, wrapEdits, Run.steps, EditSet.append]
  | cons leaf parts ih =>
    have hleaf : leaf.edits wrapFn =
        [.insertBefore leaf.span.lo (leaf.opening wrapFn), .insertAfter leaf.span.hi ")"] := by
      cases leaf <;> rfl
    have hfirst : r.steps source ((leaf.edits wrapFn).map .edit ++ [.mark leaf.span]) =
        { r with
          emitter := { r.emitter with
            edits := r.emitter.edits.append
              ⟨[.insertBefore (r.emitter.base + leaf.span.lo) (leaf.opening wrapFn),
                .insertAfter (r.emitter.base + leaf.span.hi) ")"]⟩ }
          marked := r.marked ++ [leaf.span] } := by
      simp [hleaf, Run.steps, Run.step, Run.emit, Emitter.emit, Emitter.offset, horigin,
        EditSet.issue, EditSet.insertBefore, EditSet.insertAfter, EditSet.push, EditSet.append,
        leaf.opening_filled wrapFn]
    rw [wrap, List.flatMap_cons, ← wrap, Run.steps, List.foldl_append, ← Run.steps, ← Run.steps,
      hfirst, ih]
    · simp [EditSet.append, wrapEdits, Edit.shift]
    · exact horigin

/-- The text with that of each part replaced; `pos` is where it goes on. -/
def rewritten (f : Leaf → List Char → List Char) (source : List Char) : Nat → List Leaf → List Char
  | pos, [] => textUnder source ⟨pos, Text.width source⟩
  | pos, leaf :: parts =>
    textUnder source ⟨pos, leaf.span.lo⟩ ++ f leaf (textUnder source leaf.span) ++
      rewritten f source leaf.span.hi parts

def Leaf.wrapped (wrapFn : String) (leaf : Leaf) (text : List Char) : List Char :=
  (leaf.opening wrapFn).toList ++ text ++ ")".toList

theorem textUnder_between (front back : List Char) {source text : List Char} {span : Span}
    (hsource : source = front ++ text ++ back) (hlo : Text.width front = span.lo)
    (hhi : Text.width front + Text.width text = span.hi) : textUnder source span = text := by
  rw [textUnder, Text.slice?_eq_some_iff.mpr ⟨front, back, hsource, hlo, hhi⟩, Option.getD_some]

/-- The parts hold something, stand in the order of the text, and can be cut out of it. -/
structure Separable (source : List Char) (parts : List Leaf) : Prop where
  filled : ∀ leaf ∈ parts, leaf.span.lo < leaf.span.hi
  ordered : parts.Pairwise fun x y => x.span.hi ≤ y.span.lo
  cut : ∀ leaf ∈ parts,
    Text.isBoundary leaf.span.lo source = true ∧ Text.isBoundary leaf.span.hi source = true

section Separable

variable {source front rest : List Char} {leaf : Leaf} {parts : List Leaf}

theorem Separable.tail (h : Separable source (leaf :: parts)) : Separable source parts :=
  ⟨fun l hl => h.filled l (.tail _ hl), (List.pairwise_cons.mp h.ordered).2,
    fun l hl => h.cut l (.tail _ hl)⟩

/-- Behind what has been passed stand a gap, the text of the first part, and what follows. -/
theorem Separable.split (h : Separable source (leaf :: parts)) (hsource : source = front ++ rest)
    (hpassed : Text.width front ≤ leaf.span.lo) :
    ∃ gap text back, rest = gap ++ text ++ back ∧ 0 < Text.width text ∧
      Text.width front + Text.width gap = leaf.span.lo ∧
      Text.width front + Text.width (gap ++ text) = leaf.span.hi ∧
      textUnder source ⟨Text.width front, leaf.span.lo⟩ = gap ∧
      textUnder source leaf.span = text := by
  have hfilled := h.filled leaf List.mem_cons_self
  obtain ⟨hcutLo, hcutHi⟩ := h.cut leaf List.mem_cons_self
  obtain ⟨text, hslice⟩ := Text.exists_slice?_of_isBoundary hcutLo hcutHi hfilled.le
  obtain ⟨before, back, hcuts, hlo, hhi⟩ := Text.slice?_eq_some_iff.mp hslice
  rw [hsource, List.append_assoc] at hcuts
  obtain ⟨gap, rfl, rfl⟩ := Text.append_split_of_width_le hcuts (hlo ▸ hpassed)
  rw [Text.width_append] at hlo hhi
  have hgap : textUnder source ⟨Text.width front, leaf.span.lo⟩ = gap :=
    textUnder_between front (text ++ back) (by rw [hsource, ← List.append_assoc]) rfl hlo
  have htext : textUnder source leaf.span = text :=
    textUnder_between (front ++ gap) back (by simp only [hsource, List.append_assoc])
      ((Text.width_append _ _).trans hlo) (by rw [Text.width_append, hhi])
  refine ⟨gap, text, back, (List.append_assoc ..).symm, by omega, hlo, ?_, hgap, htext⟩
  rw [Text.width_append, ← Nat.add_assoc, hhi]

/-- Keeping the text of each part keeps the text. -/
theorem rewritten_self (h : Separable source parts) (hsource : source = front ++ rest)
    (hpassed : ∀ leaf ∈ parts, Text.width front ≤ leaf.span.lo) :
    rewritten (fun _ text => text) source (Text.width front) parts = rest := by
  induction parts generalizing front rest with
  | nil => exact textUnder_between front [] (by simp [hsource]) rfl (by simp [hsource])
  | cons leaf parts ih =>
    obtain ⟨gap, text, back, rfl, -, -, hhi, hgap, htext⟩ :=
      h.split hsource (hpassed leaf List.mem_cons_self)
    rw [← Text.width_append] at hhi
    have hkept := @ih (front ++ (gap ++ text)) back h.tail (by simp [hsource])
      fun l hl => hhi ▸ (List.pairwise_cons.mp h.ordered).1 l hl
    rw [rewritten, hgap, htext, ← hhi, hkept]

/-- From what has been passed on, the edits of the parts put each part into its call. -/
theorem byOffset_wrapEdits (wrapFn : String) (h : Separable source parts)
    (hsource : source = front ++ rest) (hpassed : ∀ leaf ∈ parts, Text.width front ≤ leaf.span.lo) :
    ∃ F : List Edit, wrapEdits wrapFn parts = F.map (Edit.shift (Text.width front)) ∧
      (∀ pos text, .insertAfter pos text ∈ F → 0 < pos) ∧
      Splice.byOffset rest F =
        rewritten (Leaf.wrapped wrapFn) source (Text.width front) parts := by
  induction parts generalizing front rest with
  | nil =>
    refine ⟨[], rfl, by simp, ?_⟩
    rw [Splice.byOffset_nil, rewritten]
    exact (textUnder_between front [] (by simp [hsource]) rfl (by simp [hsource])).symm
  | cons leaf parts ih =>
    obtain ⟨gap, text, back, rfl, hfilled, hlo, hhi, hgap, htext⟩ :=
      h.split hsource (hpassed leaf List.mem_cons_self)
    have hwidth : Text.width (front ++ (gap ++ text)) = leaf.span.hi :=
      (Text.width_append _ _).trans hhi
    obtain ⟨F, hF, hafter, hwrapped⟩ := @ih (front ++ (gap ++ text)) back h.tail
      (by simp [hsource]) fun l hl => hwidth ▸ (List.pairwise_cons.mp h.ordered).1 l hl
    rw [hwidth] at hF hwrapped
    refine ⟨[.insertBefore (Text.width gap) (leaf.opening wrapFn),
      .insertAfter (Text.width (gap ++ text)) ")"] ++
        F.map (Edit.shift (Text.width (gap ++ text))), ?_, ?_, ?_⟩
    · have hshift : (F.map (Edit.shift (Text.width (gap ++ text)))).map
          (Edit.shift (Text.width front)) = F.map (Edit.shift leaf.span.hi) := by
        rw [List.map_map]
        refine List.map_congr_left fun e _ => ?_
        rw [Function.comp_apply, Edit.shift_shift, hhi]
      rw [List.map_append, hshift, ← hF, wrapEdits, List.flatMap_cons, ← wrapEdits]
      simp only [List.map_cons, List.map_nil, Edit.shift, hlo, hhi]
    · -- the text of the part stands in front of all that is added behind something
      have hlong : 0 < Text.width (gap ++ text) := by
        rw [Text.width_append]
        omega
      intro pos inserted hmem
      rcases List.mem_append.mp hmem with hmem | hmem
      · simp only [List.mem_cons, reduceCtorEq, Edit.insertAfter.injEq, List.not_mem_nil, or_false,
          false_or] at hmem
        omega
      · obtain ⟨e, -, hshift⟩ := List.mem_map.mp hmem
        have hends := congrArg Edit.start hshift
        rw [(Edit.shift_ends _ e).1, Edit.start] at hends
        omega
    · rw [rewritten, hgap, htext, ← hwrapped,
        Splice.byOffset_enclosed_append gap hfilled back _ _ hafter]
      rfl

end Separable

theorem mem_wrapEdits {wrapFn : String} {parts : List Leaf} {e : Edit}
    (h : e ∈ wrapEdits wrapFn parts) :
    Splice.replacement? e = none ∧ e.start = e.stop ∧
      ∃ leaf ∈ parts, e.start = leaf.span.lo ∨ e.start = leaf.span.hi := by
  obtain ⟨leaf, hleaf, he⟩ := List.mem_flatMap.mp h
  simp only [List.mem_cons, List.not_mem_nil, or_false] at he
  rcases he with rfl | rfl
  · exact ⟨rfl, rfl, leaf, hleaf, .inl rfl⟩
  · exact ⟨rfl, rfl, leaf, hleaf, .inr rfl⟩

/-- The edits of parts of a text can be applied wherever the text stands, and wrap the parts. -/
theorem apply_wrapEdits (wrapFn : String) {source : List Char} {parts : List Leaf}
    (h : Separable source parts) (front back : List Char) :
    ∃ out, EditSet.apply ⟨(wrapEdits wrapFn parts).map (Edit.shift (Text.width front))⟩
        (front ++ source ++ back) = .ok out ∧
      out.code = front ++ rewritten (Leaf.wrapped wrapFn) source 0 parts ++ back := by
  have hboundary : ∀ e ∈ wrapEdits wrapFn parts, Text.isBoundary e.start source = true := by
    intro e he
    obtain ⟨-, -, leaf, hleaf, hstart | hstart⟩ := mem_wrapEdits he
    · exact hstart ▸ (h.cut leaf hleaf).1
    · exact hstart ▸ (h.cut leaf hleaf).2
  have hmoved : ∀ e ∈ (wrapEdits wrapFn parts).map (Edit.shift (Text.width front)),
      Splice.replacement? e = none ∧ e.start = e.stop ∧
        Text.isBoundary e.start (front ++ source ++ back) = true := by
    intro e he
    obtain ⟨f, hf, rfl⟩ := List.mem_map.mp he
    obtain ⟨hinserts, hends, -⟩ := mem_wrapEdits hf
    obtain ⟨a, b, rfl, ha⟩ := Text.isBoundary_iff.mp (hboundary f hf)
    obtain ⟨hstart, hstop⟩ := Edit.shift_ends (Text.width front) f
    refine ⟨by rw [Splice.replacement?_shift, hinserts]; rfl, by rw [hstart, hstop, hends], ?_⟩
    exact Text.isBoundary_iff.mpr ⟨front ++ a, b ++ back, by simp, by
      rw [Text.width_append, hstart, ha]⟩
  have hplaced : Splice.Placed (front ++ source ++ back)
      ((wrapEdits wrapFn parts).map (Edit.shift (Text.width front))) :=
    { ordered := fun e he => (hmoved e he).2.1.le
      start_boundary := fun e he => (hmoved e he).2.2
      stop_boundary := fun e he => (hmoved e he).2.1 ▸ (hmoved e he).2.2
      apart := List.pairwise_of_forall_mem_list fun e he f _ r hr => by
        rw [(hmoved e he).1] at hr
        cases hr
      clear := fun e _ f hf pos _ r hr => by
        rw [(hmoved f hf).1] at hr
        cases hr }
  obtain ⟨out, hout, hcode⟩ := Splice.apply_of_placed
    (fun e he r hr => by rw [(hmoved e he).1] at hr; cases hr) hplaced
  refine ⟨out, hout, ?_⟩
  -- the texts around the source are left as they are, since nothing is inserted there
  obtain ⟨F, hF, -, hwrapped⟩ := @byOffset_wrapEdits source [] source parts wrapFn h rfl
    fun leaf _ => Nat.zero_le _
  rw [Text.width_nil, funext Edit.shift_zero, List.map_id'] at hF
  subst hF
  have hbehind := @Splice.byOffset_append source back (wrapEdits wrapFn parts) []
    (fun e he => ⟨(mem_wrapEdits he).2.1.le, (mem_wrapEdits he).2.1 ▸
      Text.isBoundary_le_width (hboundary e he)⟩) (.inr (by simp))
  have hbefore := @Splice.byOffset_append front (source ++ back) [] (wrapEdits wrapFn parts)
    (by simp) (.inl (by simp))
  rw [List.map_nil, List.append_nil, Splice.byOffset_nil] at hbehind
  rw [List.nil_append, Splice.byOffset_nil] at hbefore
  rw [hcode, List.append_assoc, hbefore, hbehind, hwrapped, List.append_assoc]
  rfl

/-- Wrapping an expression whose spans are well nested. Its parts are those that are reached from
it; they lie in it, apart from each other and in the order of the text. For each part one text is
inserted in front and one behind, and the part is marked; nothing else happens. Applied to a
document in which the unit stands, the edits replace the text of each part by a call with it, and
keep all other text. -/
theorem wrap_replaces_leaves (wrapFn : String) (source : List Char) (e : Expr)
    (hnested : e.WellNested source) :
    (∀ leaf, leaf ∈ leaves e ↔ LeafOf e leaf) ∧
    (∀ leaf ∈ leaves e, e.span.lo ≤ leaf.span.lo ∧ leaf.span.lo < leaf.span.hi ∧
      leaf.span.hi ≤ e.span.hi) ∧
    (leaves e).Pairwise (fun a b => a.span.hi ≤ b.span.lo) ∧
    (∀ r : Run, r.emitter.origin = 0 →
      r.steps source (wrap wrapFn (leaves e)) =
        { r with
          emitter := { r.emitter with
            edits := r.emitter.edits.append
              ⟨(wrapEdits wrapFn (leaves e)).map (Edit.shift r.emitter.base)⟩ }
          marked := r.marked ++ (leaves e).map Leaf.span }) ∧
    (∀ front back, ∃ out,
      EditSet.apply ⟨(wrapEdits wrapFn (leaves e)).map (Edit.shift (Text.width front))⟩
        (front ++ source ++ back) = .ok out ∧
      out.code = front ++ rewritten (Leaf.wrapped wrapFn) source 0 (leaves e) ++ back) ∧
    rewritten (fun _ text => text) source 0 (leaves e) = source := by
  have hlies : Within e.span (leaves e) :=
    leavesLie_of_nested (hnested.nested.and hnested.inOrder)
  have hparts : Separable source (leaves e) :=
    { filled := hlies.filled
      ordered := hlies.ordered
      cut := fun leaf hleaf => (mem_leaves_iff.mp hleaf).isCut hnested.cut }
  refine ⟨fun leaf => mem_leaves_iff, fun leaf hleaf => ?_, hlies.ordered,
    fun r => steps_wrap source wrapFn (leaves e) r, apply_wrapEdits wrapFn hparts, ?_⟩
  · obtain ⟨hlo, hhi⟩ := hlies.inside leaf hleaf
    exact ⟨hlo, hlies.filled leaf hleaf, hhi⟩
  · exact @rewritten_self source [] source _ hparts rfl fun leaf _ => Nat.zero_le _

def nestedParts : Expr :=
  .array ⟨0, 19⟩
    [.one (.name ⟨"a", ⟨1, 2⟩⟩),
      .one (.object ⟨3, 12⟩ [.shorthand ⟨"b", ⟨4, 5⟩⟩,
        .pair (.name ⟨"c", ⟨6, 7⟩⟩) (.wrapped ⟨8, 11⟩ .parens (.name ⟨"d", ⟨9, 10⟩⟩))]),
      .one (.arrowTo ⟨13, 18⟩ [] (.name ⟨"e", ⟨17, 18⟩⟩))]

/-- An element, a shorthand, a value in parentheses and a result, each in its call. -/
theorem wrap_replaces_leaves_nested :
    nestedParts.WellNested "[a,\x7bb,c:(d)\x7d,()=>e]".toList ∧
    ∃ out, EditSet.apply ⟨(wrapEdits "w" (leaves nestedParts)).map (Edit.shift 0)⟩
        "[a,\x7bb,c:(d)\x7d,()=>e]".toList = .ok out ∧
      out.code = "[w(a),\x7bb: w(b),c:(w(d))\x7d,()=>w(e)]".toList := by
  have hnested : nestedParts.WellNested "[a,\x7bb,c:(d)\x7d,()=>e]".toList :=
    { nested := @Node.everywhere_of_check _ 6 _ (by decide +kernel)
      inOrder := @Node.everywhere_of_check _ 6 _ (by decide +kernel)
      cut := @Node.everywhere_of_check _ 6 _ (by decide +kernel) }
  refine ⟨hnested, ?_⟩
  obtain ⟨out, hout, hcode⟩ := (wrap_replaces_leaves "w" _ nestedParts hnested).2.2.2.2.1 [] []
  refine ⟨out, by simpa using hout, ?_⟩
  rw [hcode]
  decide +kernel

end RefSugar.Walk

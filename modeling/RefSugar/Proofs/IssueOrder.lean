import Mathlib
import RefSugar.Proofs.AnchoredEdits
import RefSugar.Proofs.Faults
import RefSugar.Proofs.Weaving

/-! What applied edits give does not hang on the order in which they were issued, apart from
insertions at one offset for one side. So the edits of a result can be sorted, published and issued
again. -/
namespace RefSugar

variable {em : Emitter} {r : Run} {p : Progress} {t : Transformed}

def Edit.insertsWith : Edit → Edit → Bool
  | .insertBefore p _, .insertBefore q _ => p == q
  | .insertAfter p _, .insertAfter q _ => p == q
  | _, _ => false

namespace Splice

/-- The same edits in another order, in which insertions at one offset for one side keep theirs. -/
structure Reordered (edits edits' : List Edit) : Prop where
  perm : edits'.Perm edits
  ties : ∀ e : Edit, edits'.filter e.insertsWith = edits.filter e.insertsWith

def InsertsApart (s t : EditSet) : Prop :=
  ∀ e ∈ s.edits, ∀ f ∈ t.edits, ∀ pos, insertPos? e = some pos → insertPos? f ≠ some pos

section Order

variable {source : List Char} {edits edits' : List Edit}

theorem filterMap_eq_of_filter_eq {α β : Type} {f : α → Option β} {keep : α → Bool}
    (hkeep : ∀ a, keep a = false → f a = none) {l l' : List α}
    (h : l'.filter keep = l.filter keep) : l'.filterMap f = l.filterMap f := by
  have hfilter (k : List α) : k.filterMap f = (k.filter keep).filterMap f := by
    rw [List.filterMap_filter]
    apply List.filterMap_congr
    intro a _
    cases ha : keep a with
    | false => simp [hkeep a ha]
    | true => simp
  rw [hfilter l', hfilter l, h]

/-- Where the ties are kept, the same texts are inserted in the same order. -/
theorem Reordered.insertedAt_eq (h : Reordered edits edits') (p : Nat) :
    insertedAt edits' p = insertedAt edits p := by
  unfold insertedAt
  congr 1
  · apply filterMap_eq_of_filter_eq _ (h.ties (.insertAfter p ""))
    intro e he
    cases e with
    | insertAfter q text =>
      have hne : p ≠ q := by simpa [Edit.insertsWith] using he
      simp [hne.symm]
    | _ => rfl
  · apply filterMap_eq_of_filter_eq _ (h.ties (.insertBefore p ""))
    intro e he
    cases e with
    | insertBefore q text =>
      have hne : p ≠ q := by simpa [Edit.insertsWith] using he
      simp [hne.symm]
    | _ => rfl

theorem RangesFilled.perm (h : RangesFilled edits) (hperm : edits'.Perm edits) :
    RangesFilled edits' :=
  fun e he => h e (hperm.mem_iff.mp he)

theorem Placed.perm (h : Placed source edits) (hperm : edits'.Perm edits) :
    Placed source edits' where
  ordered := fun e he => h.ordered e (hperm.mem_iff.mp he)
  start_boundary := fun e he => h.start_boundary e (hperm.mem_iff.mp he)
  stop_boundary := fun e he => h.stop_boundary e (hperm.mem_iff.mp he)
  apart := by
    refine (hperm.pairwise_iff ?_).mpr h.apart
    intro e f hef r hr q hq
    exact (hef q hq r hr).symm
  clear := fun e he f hf => h.clear e (hperm.mem_iff.mp he) f (hperm.mem_iff.mp hf)

/-- Ranges that are apart are sorted in one way. -/
theorem replacements_perm (hfilled : RangesFilled edits) (hplaced : Placed source edits)
    (hperm : edits'.Perm edits) : replacements edits' = replacements edits := by
  have hranges : (replacements edits').Perm (replacements edits) :=
    (List.mergeSort_perm _ _).trans
      ((hperm.filterMap replacement?).trans (List.mergeSort_perm _ _).symm)
  apply List.Perm.eq_of_pairwise _ (replacements_by_start edits') (replacements_by_start edits)
    hranges
  intro r q hr hq hrq hqr
  -- ranges that start together are one, since filled ranges are apart
  have hr' : r ∈ replacements edits := hranges.mem_iff.mp hr
  exact replacement_unique hfilled hplaced hr' hq (Nat.le_antisymm hrq hqr)

theorem increasing_perm {l l' : List Nat} (hperm : l'.Perm l) : increasing l' = increasing l := by
  have hsorted : (increasing l').Perm (increasing l) := by
    have hnodup (k : List Nat) : (increasing k).Nodup :=
      (increasing_strict k).imp fun hlt => Nat.ne_of_lt hlt
    rw [List.perm_ext_iff_of_nodup (hnodup l') (hnodup l)]
    intro p
    rw [mem_increasing, mem_increasing, hperm.mem_iff]
  apply List.Perm.eq_of_pairwise _ (increasing_strict l') (increasing_strict l) hsorted
  intro p q _ _ hpq hqp
  omega

theorem stops_perm (hperm : edits'.Perm edits) : stops edits' = stops edits :=
  increasing_perm (hperm.map Edit.start)

/-- Of the edits themselves, the stretches hang on what is inserted only. -/
theorem stretches_congr (hinserted : ∀ p, insertedAt edits' p = insertedAt edits p)
    (ranges : List Replacement) (stops : List Nat) (done : Nat) :
    stretches source edits' ranges stops done = stretches source edits ranges stops done := by
  induction stops generalizing done with
  | nil => rfl
  | cons pos rest ih =>
    rw [stretches, stretches, hinserted]
    split <;> simp only [ih]

/-- Edits that can be applied give the same in every such order. -/
theorem apply_reordered {out : Spliced} (hfilled : RangesFilled edits)
    (h : EditSet.apply ⟨edits⟩ source = .ok out) (horder : Reordered edits edits') :
    EditSet.apply ⟨edits'⟩ source = .ok out := by
  unfold EditSet.apply at h ⊢
  split at h
  · cases h
  · rename_i hfault
    have hplaced := (fault_eq_none_iff hfilled).mp hfault
    have hfault' : fault source edits' = none :=
      (fault_eq_none_iff (hfilled.perm horder.perm)).mpr (hplaced.perm horder.perm)
    -- the stretches are made of the sorted ranges, the stops and what is inserted at each of them
    rw [hfault']
    simp only [replacements_perm hfilled hplaced horder.perm, stops_perm horder.perm,
      stretches_congr horder.insertedAt_eq]
    exact h

end Order

section Orders

theorem insertsWith_start {e f : Edit} (h : e.insertsWith f = true) :
    f.start = e.start ∧ insertPos? e = some e.start ∧ insertPos? f = some e.start := by
  cases e <;> cases f <;> simp_all [Edit.insertsWith, Edit.start, insertPos?]

/-- Sorting by start keeps insertions at one offset in order. -/
theorem sorted_reordered (s : EditSet) : Reordered s.edits s.sorted where
  perm := List.mergeSort_perm _ _
  ties := by
    intro e
    apply filter_mergeSort
    · intro a b c
      simp only [decide_eq_true_eq]
      omega
    · intro a b
      simp only [Bool.or_eq_true, decide_eq_true_eq]
      omega
    · -- all of them start where `e` does
      refine List.pairwise_of_forall_mem_list fun a ha b hb => ?_
      have hstart := (insertsWith_start (List.mem_filter.mp ha).2).1
      have hstart' := (insertsWith_start (List.mem_filter.mp hb).2).1
      simp only [decide_eq_true_eq]
      omega

/-- Sets that do not insert at the same offsets can change places. -/
theorem append_reordered {s t : EditSet} (hapart : InsertsApart s t) :
    Reordered (s.append t).edits (t.append s).edits where
  perm := List.perm_append_comm
  ties := by
    intro e
    change (t.edits ++ s.edits).filter e.insertsWith = (s.edits ++ t.edits).filter e.insertsWith
    rw [List.filter_append, List.filter_append]
    -- only one of the two sets inserts where `e` does
    by_cases hs : ∃ f ∈ s.edits, e.insertsWith f = true
    · obtain ⟨f, hf, hfe⟩ := hs
      have hnone : t.edits.filter e.insertsWith = [] := by
        rw [List.filter_eq_nil_iff]
        intro g hg hge
        exact hapart f hf g hg e.start (insertsWith_start hfe).2.2 (insertsWith_start hge).2.2
      rw [hnone, List.nil_append, List.append_nil]
    · have hnone : s.edits.filter e.insertsWith = [] := by
        rw [List.filter_eq_nil_iff]
        intro f hf hfe
        exact hs ⟨f, hf, hfe⟩
      rw [hnone, List.nil_append, List.append_nil]

end Orders

end Splice

section Replaying

/-- Edits that do something are all issued again. -/
theorem EditSet.replay_eq {edits : List Edit} (h : ∀ e ∈ edits, e.isFilled = true) :
    replay edits = ⟨edits⟩ := by
  refine congrArg EditSet.mk ((replay_edits edits).trans ?_)
  rw [List.flatMap_congr fun e he => Edit.issued_of_isFilled (h e he), List.flatMap_singleton']

theorem replay_sorted {source : List Char} {s : EditSet} {out : Spliced} (hbuilt : s.Built)
    (h : s.apply source = .ok out) : (EditSet.replay s.sorted).apply source = .ok out := by
  have horder := Splice.sorted_reordered s
  rw [EditSet.replay_eq fun e he => hbuilt.filled e (horder.perm.mem_iff.mp he)]
  exact Splice.apply_reordered (Splice.ranges_filled_of_built hbuilt) h horder

end Replaying

section Issuing

theorem Emitter.emit_built (h : em.edits.Built) (e : Edit) :
    (em.emit e).edits.Built :=
  h.issue _

theorem Emitter.emit_all_built (h : em.edits.Built) (edits : List Edit) :
    (edits.foldl Emitter.emit em).edits.Built := by
  induction edits generalizing em with
  | nil => exact h
  | cons e edits ih => exact ih (emit_built h e)

theorem Reference.resolveAll_built (h : em.edits.Built) (scopes : Scopes)
    (marked : List Syntax.Span) (resolution : Resolution) (references : List Reference) :
    (resolveAll scopes marked resolution references em).edits.Built := by
  unfold resolveAll
  induction references generalizing em with
  | nil => exact h
  | cons r references ih => exact ih (Emitter.emit_all_built h _)

namespace Walk.Run

/-- A step issues its edits through the operations on sets. -/
theorem step_built (h : r.emitter.edits.Built) (source : List Char) (event : Event) :
    (r.step source event).emitter.edits.Built := by
  cases event with
  | edit e => exact Emitter.emit_built h e
  | unpack place plan stop =>
    rw [step, unpack_eq]
    exact Emitter.emit_all_built h _
  | _ => exact h

theorem steps_built (h : r.emitter.edits.Built) (source : List Char)
    (events : List Event) : (r.steps source events).emitter.edits.Built := by
  unfold steps
  induction events generalizing r with
  | nil => exact h
  | cons event events ih => exact ih (step_built h source event)

theorem finish_built (h : r.emitter.edits.Built) (o : Options) :
    (r.finish o).edits.Built := by
  have hresolved := Reference.resolveAll_built h r.scopes.leave r.marked o.resolution r.references
  unfold finish
  dsimp only
  split
  · exact hresolved
  · split
    · exact .insertAfter hresolved _ _
    · exact hresolved

end Walk.Run

theorem Walk.script_built (o : Options) (session : Session) (base : Nat) (source : List Char)
    (stmts : List Syntax.Stmt) : (script o session base source stmts).edits.Built :=
  Run.finish_built (Run.steps_built .empty source _) o

theorem Walk.expression_built (o : Options) (unwraps : List String) (source : List Char)
    (e : Syntax.Expr) : (expression o unwraps source e).edits.Built :=
  Run.finish_built (Run.steps_built .empty source _) o

namespace Transform

variable {o : Options} {filename : String} {source : List Char}

/-- A region issues its edits to the set one by one. -/
theorem region_built {p' : Progress} {r : Document.Region} (hbuilt : p.edits.Built)
    (h : region o filename source p r = .ok p') : p'.edits.Built := by
  unfold region at h
  split at h
  · cases h
  · split at h
    · obtain rfl := Except.ok.inj h
      exact hbuilt
    · split at h
      · cases h
      · obtain rfl := Except.ok.inj h
        exact .append hbuilt (Walk.script_built _ _ _ _ _)

theorem regions_built {regions : List Document.Region}
    (h : regions.foldlM (region o filename source) {} = .ok p) : p.edits.Built := by
  refine @foldlM_ok_induct _ _ _ (region o filename source) (fun _ p => p.edits.Built) {} p regions
    .empty ?_ h
  intro _ r p p' _ hbuilt hregion
  exact region_built hbuilt hregion

theorem finalEdits_built (h : p.edits.Built) : (p.finalEdits o).Built := by
  unfold Progress.finalEdits
  split
  · exact h
  · split
    · exact .insertAfter h _ _
    · exact h

end Transform

end Issuing

/-- The edits that are told with a result make its code when they are issued again. They also make
its mappings, except that a result without edits has none. -/
def Transformed.Replays (source : List Char) (t : Transformed) : Prop :=
  ∃ out, (EditSet.replay t.edits).apply source = .ok out ∧ t.code = out.code ∧
    t.mappings = if t.isChanged then out.mappings else []

namespace Transform

variable {o : Options} {filename : String} {source : List Char}

theorem unchanged_replays (source : List Char) : (Transformed.unchanged source).Replays source := by
  obtain ⟨out, hout, hcode⟩ := @Splice.apply_of_placed source [] (by simp [Splice.RangesFilled])
    ⟨by simp, by simp, by simp, .nil, by simp⟩
  exact ⟨out, hout, by rw [hcode, Splice.byOffset_nil]; rfl, rfl⟩

/-- The result of a set that was built can be made again from its edits. -/
theorem splice_replays {edits : EditSet} (hbuilt : edits.Built)
    (h : splice o filename source edits = .ok t) : t.Replays source := by
  unfold splice at h
  split at h
  · obtain rfl := Except.ok.inj h
    exact unchanged_replays source
  · rename_i hsome
    split at h
    · cases h
    · rename_i out happly
      obtain rfl := Except.ok.inj h
      refine ⟨out, replay_sorted hbuilt happly, rfl, ?_⟩
      have hsorted : edits.sorted ≠ [] := by
        intro hnil
        have hperm := (Splice.sorted_reordered edits).perm
        rw [hnil] at hperm
        exact hsome (List.isEmpty_iff.mpr hperm.nil_eq.symm)
      simp [Transformed.isChanged, hsorted]

theorem transformRegions_replays {regions : List Document.Region}
    (h : transformRegions o filename source regions = .ok t) : t.Replays source := by
  obtain ⟨p, result, hfold, hsplice, rfl⟩ := transformRegions_inv h
  have hresult : result.Replays source :=
    splice_replays (finalEdits_built (regions_built hfold)) hsplice
  exact hresult

/-- So can the result for a lone expression. -/
theorem transformExpression_replays {dialect : Dialect} {unwraps : List String}
    (h : transformExpression o filename dialect unwraps source = .ok t) : t.Replays source := by
  unfold transformExpression at h
  split at h
  · obtain rfl := Except.ok.inj h
    exact unchanged_replays source
  · split at h
    · cases h
    · rename_i e _
      cases hsplice : splice o filename source (Walk.expression o unwraps source e).edits with
      | error err =>
        rw [hsplice] at h
        cases h
      | ok result =>
        rw [hsplice] at h
        obtain rfl := Except.ok.inj h
        have hresult : result.Replays source :=
          splice_replays (Walk.expression_built o unwraps source e) hsplice
        exact hresult

end Transform

open Splice in
/-- What a set gives when it is applied, it gives in every order that keeps the order of insertions
at one offset for one side: sorted and issued again, and with two sets that do not insert at the
same offsets joined either way round. So the edits that are told with a result make it again. -/
theorem apply_order_irrelevant (source : List Char) :
    (∀ (s : EditSet) out, s.Built → s.apply source = .ok out →
      (∀ s' : EditSet, Reordered s.edits s'.edits → s'.apply source = .ok out) ∧
      (EditSet.replay s.sorted).apply source = .ok out ∧
      ∀ a b : EditSet, s = a.append b → InsertsApart a b → (b.append a).apply source = .ok out) ∧
    (∀ o filename t, transformFile o filename source = .ok t → t.Replays source) ∧
    (∀ o filename regions t, transformRegions o filename source regions = .ok t →
      t.Replays source) ∧
    ∀ o filename dialect unwraps t,
      transformExpression o filename dialect unwraps source = .ok t → t.Replays source := by
  refine ⟨fun s out hbuilt happly => ?_, fun o filename t h => ?_,
    fun o filename regions t => Transform.transformRegions_replays,
    fun o filename dialect unwraps t => Transform.transformExpression_replays⟩
  · have hreordered (s' : EditSet) (horder : Reordered s.edits s'.edits) :
        s'.apply source = .ok out :=
      apply_reordered (ranges_filled_of_built hbuilt) happly horder
    refine ⟨hreordered, replay_sorted hbuilt happly, ?_⟩
    rintro a b rfl hapart
    exact hreordered _ (append_reordered hapart)
  · obtain ⟨regions, -, h⟩ := Transform.transformFile_inv h
    exact Transform.transformRegions_replays h

/-- Two insertions at one offset with a range between them, followed by a set with an insertion
behind. Then a result with an edit. -/
theorem apply_order_irrelevant_ties :
    (∃ (a b s' : EditSet) (out : Spliced), (a.append b).Built ∧
      a.edits = [.insertAfter 3 "b", .remove 1 3, .insertAfter 3 "c"] ∧
      b.edits = [.insertBefore 4 "!"] ∧
      s'.edits = [.insertBefore 4 "!", .insertAfter 3 "b", .insertAfter 3 "c", .remove 1 3] ∧
      out.code = "abcz!".toList ∧ (a.append b).apply "añz".toList = .ok out ∧
      s'.apply "añz".toList = .ok out ∧ (b.append a).apply "añz".toList = .ok out ∧
      (EditSet.replay (a.append b).sorted).apply "añz".toList = .ok out) ∧
    ∃ t, transformFile {} "t.ts" "let a = $f()".toList = .ok t ∧ t.isChanged = true ∧
      t.Replays "let a = $f()".toList := by
  constructor
  · have hbuilt : EditSet.Built
        (EditSet.append (((({} : EditSet).insertAfter 3 "b").remove 1 3).insertAfter 3 "c")
          (({} : EditSet).insertBefore 4 "!")) :=
      .append (.insertAfter (.remove (.insertAfter .empty 3 "b") 1 3) 3 "c")
        (.insertBefore .empty 4 "!")
    have happly : EditSet.apply
        ⟨[.insertAfter 3 "b", .remove 1 3, .insertAfter 3 "c", .insertBefore 4 "!"]⟩ "añz".toList =
        .ok ⟨"abcz!".toList, [⟨0, 0, 0⟩, ⟨0, 3, 3⟩]⟩ := by cbv
    have horder : Splice.Reordered
        [.insertAfter 3 "b", .remove 1 3, .insertAfter 3 "c", .insertBefore 4 "!"]
        [.insertBefore 4 "!", .insertAfter 3 "b", .insertAfter 3 "c", .remove 1 3] := by
      refine ⟨by decide, fun e => ?_⟩
      cases e <;> simp [List.filter_cons, Edit.insertsWith]
    obtain ⟨hreordered, hsorted, happend⟩ :=
      (apply_order_irrelevant "añz".toList).1 _ _ hbuilt happly
    refine ⟨_, _, ⟨_⟩, _, hbuilt, rfl, rfl, rfl, rfl, happly, hreordered ⟨_⟩ horder,
      happend _ _ rfl ?_, hsorted⟩
    simp [Splice.InsertsApart, EditSet.insertAfter, EditSet.insertBefore, EditSet.remove,
      EditSet.push, Splice.insertPos?]
  · obtain ⟨_, ht⟩ := @Transform.transformFile_of_edits {} "t.ts" "let a = $f()".toList
      [.whole "let a = $f()".toList .ts] [.remove 8 9] rfl (by decide +kernel) (by decide +kernel)
    have happly : EditSet.apply ⟨[.remove 8 9]⟩ "let a = $f()".toList =
        .ok ⟨"let a = f()".toList, [⟨0, 0, 0⟩, ⟨0, 8, 9⟩]⟩ := by cbv
    have hsorted : EditSet.sorted ⟨[.remove 8 9]⟩ = [.remove 8 9] := by cbv
    simp only [Transform.splice, EditSet.isEmpty, List.isEmpty_cons, Bool.false_eq_true, if_false,
      happly, hsorted, Except.map] at ht
    exact ⟨_, ht, rfl, (apply_order_irrelevant _).2.1 _ _ _ ht⟩

/-- A result without edits has no mappings, although its edits give one. -/
theorem unchanged_mappings_not_replayed :
    ∃ t out, transformFile {} "t.ts" "a".toList = .ok t ∧
      (EditSet.replay t.edits).apply "a".toList = .ok out ∧ t.mappings ≠ out.mappings := by
  refine ⟨.unchanged "a".toList, ⟨"a".toList, [⟨0, 0, 0⟩]⟩, by rfl, by cbv, ?_⟩
  simp [Transformed.unchanged]

end RefSugar

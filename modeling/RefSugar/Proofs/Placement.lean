import RefSugar.Edit.Splice
import RefSugar.Proofs.Offsets

/-! When a set of edits can be applied. The check of a document sorts its ranges and looks at
neighbours; here the same is said of any two edits, in whatever order they were issued. -/
namespace RefSugar

namespace Edit

def isFilled : Edit → Bool
  | .insertBefore _ text | .insertAfter _ text => !text.isEmpty
  | .remove start stop | .overwrite start stop _ => start < stop

/-- What an operation stores: nothing if it does nothing, and an insertion where it overwrites
nothing. -/
def issued : Edit → List Edit
  | .insertBefore pos text => if text.isEmpty then [] else [.insertBefore pos text]
  | .insertAfter pos text => if text.isEmpty then [] else [.insertAfter pos text]
  | .remove start stop => if start < stop then [.remove start stop] else []
  | .overwrite start stop text =>
    if start < stop then [.overwrite start stop text]
    else if text.isEmpty then [] else [.insertBefore start text]

theorem issue_edits (s : EditSet) (e : Edit) : (s.issue e).edits = s.edits ++ e.issued := by
  cases e <;> simp only [EditSet.issue, EditSet.insertBefore, EditSet.insertAfter, EditSet.remove,
    EditSet.overwrite, issued] <;> (repeat' split) <;> simp [EditSet.push]

/-- An edit is issued as it is if it does something. An overwriting of nothing inserts where it
stands. -/
theorem issued_cases (e : Edit) :
    e.isFilled = true ∧ e.issued = [e] ∨
      e.isFilled = false ∧ (e.issued = [] ∨
        ∃ start stop text, e = .overwrite start stop text ∧ e.issued = [.insertBefore start text]) := by
  cases e <;> simp only [isFilled, issued] <;> (repeat' split) <;> simp_all

theorem issued_of_isFilled {e : Edit} (h : e.isFilled = true) : e.issued = [e] := by
  rcases e.issued_cases with ⟨_, hissued⟩ | ⟨hvoid, _⟩
  · exact hissued
  · simp [h] at hvoid

theorem mem_issued {e e' : Edit} (h : e' ∈ e.issued) :
    e' = e ∧ e.isFilled = true ∨
      ∃ start stop text, e = .overwrite start stop text ∧ ¬ start < stop ∧
        e' = .insertBefore start text := by
  rcases e.issued_cases with ⟨hfilled, hissued⟩ | ⟨hvoid, hissued | ⟨start, stop, text, rfl, hissued⟩⟩
  · exact .inl ⟨by simpa [hissued] using h, hfilled⟩
  · simp [hissued] at h
  · exact .inr ⟨start, stop, text, rfl, by simpa [isFilled] using hvoid, by simpa [hissued] using h⟩

theorem isFilled_of_mem_issued {e f : Edit} (h : f ∈ e.issued) : f.isFilled = true := by
  cases e <;> simp only [issued] at h <;> (repeat' split at h) <;> simp_all [isFilled]

end Edit

namespace EditSet

/-- The sets that can be built from the operations on them. -/
inductive Built : EditSet → Prop where
  | empty : Built {}
  | insertBefore {s : EditSet} (h : Built s) (pos : Nat) (text : String) :
    Built (s.insertBefore pos text)
  | insertAfter {s : EditSet} (h : Built s) (pos : Nat) (text : String) :
    Built (s.insertAfter pos text)
  | remove {s : EditSet} (h : Built s) (start stop : Nat) : Built (s.remove start stop)
  | overwrite {s : EditSet} (h : Built s) (start stop : Nat) (text : String) :
    Built (s.overwrite start stop text)
  | append {s t : EditSet} (hs : Built s) (ht : Built t) : Built (s.append t)

def replay (edits : List Edit) : EditSet :=
  edits.foldl EditSet.issue {}

/-- Operations are stored in the order in which they are issued. -/
theorem foldl_issue_edits (s : EditSet) (ops : List Edit) :
    (ops.foldl issue s).edits = s.edits ++ ops.flatMap Edit.issued := by
  induction ops generalizing s with
  | nil => simp
  | cons e ops ih => rw [List.foldl_cons, ih, Edit.issue_edits, List.flatMap_cons, List.append_assoc]

theorem replay_edits (ops : List Edit) : (replay ops).edits = ops.flatMap Edit.issued :=
  foldl_issue_edits {} ops

theorem Built.issue {s : EditSet} (h : s.Built) (e : Edit) : (s.issue e).Built := by
  cases e with
  | insertBefore pos text => exact .insertBefore h pos text
  | insertAfter pos text => exact .insertAfter h pos text
  | remove start stop => exact .remove h start stop
  | overwrite start stop text => exact .overwrite h start stop text

/-- A set is built by issuing operations, and what it stores are these operations, in order. -/
theorem built_iff {s : EditSet} :
    s.Built ↔ ∃ ops, s = replay ops ∧ s.edits = ops.flatMap Edit.issued := by
  have hsnoc (ops : List Edit) (e : Edit) : (replay ops).issue e = replay (ops ++ [e]) := by
    rw [replay, replay, List.foldl_append, List.foldl_cons, List.foldl_nil]
  constructor
  · intro h
    obtain ⟨ops, rfl⟩ : ∃ ops, s = replay ops := by
      induction h with
      | empty => exact ⟨[], rfl⟩
      | insertBefore _ pos text ih =>
        obtain ⟨ops, rfl⟩ := ih
        exact ⟨_, hsnoc ops (.insertBefore pos text)⟩
      | insertAfter _ pos text ih =>
        obtain ⟨ops, rfl⟩ := ih
        exact ⟨_, hsnoc ops (.insertAfter pos text)⟩
      | remove _ start stop ih =>
        obtain ⟨ops, rfl⟩ := ih
        exact ⟨_, hsnoc ops (.remove start stop)⟩
      | overwrite _ start stop text ih =>
        obtain ⟨ops, rfl⟩ := ih
        exact ⟨_, hsnoc ops (.overwrite start stop text)⟩
      | append _ _ ihs iht =>
        obtain ⟨⟨ops, rfl⟩, ⟨more, rfl⟩⟩ := And.intro ihs iht
        refine ⟨ops ++ more, congrArg EditSet.mk ?_⟩
        rw [replay_edits, replay_edits, ← List.flatMap_append, ← replay_edits]
        rfl
    exact ⟨ops, rfl, replay_edits ops⟩
  · rintro ⟨ops, rfl, _⟩
    have hfold {ops : List Edit} {s : EditSet} (h : s.Built) :
        (ops.foldl EditSet.issue s).Built := by
      induction ops generalizing s with
      | nil => exact h
      | cons e ops ih => exact ih (h.issue e)
    exact hfold .empty

/-- Every edit of a set does something. -/
theorem Built.filled {s : EditSet} (h : s.Built) : ∀ e ∈ s.edits, e.isFilled = true := by
  obtain ⟨ops, _, hedits⟩ := built_iff.mp h
  intro e he
  rw [hedits] at he
  obtain ⟨op, _, he⟩ := List.mem_flatMap.mp he
  exact Edit.isFilled_of_mem_issued he

end EditSet

namespace Splice

def RangesFilled (edits : List Edit) : Prop :=
  ∀ e ∈ edits, ∀ r, replacement? e = some r → r.start < r.stop

theorem ranges_filled_of_built {s : EditSet} (h : s.Built) : RangesFilled s.edits := by
  intro e he r hr
  have hfilled := h.filled e he
  cases e <;> simp only [replacement?, Option.some.injEq, reduceCtorEq] at hr
  all_goals
    subst hr
    simpa [Edit.isFilled] using hfilled

/-- Two edits do not both replace the same piece of the text. -/
def Apart (e f : Edit) : Prop :=
  ∀ r, replacement? e = some r → ∀ q, replacement? f = some q → r.stop ≤ q.start ∨ q.stop ≤ r.start

/-- The first edit does not insert strictly inside what the second one replaces. -/
def Clear (e f : Edit) : Prop :=
  ∀ pos, insertPos? e = some pos → ∀ r, replacement? f = some r → pos ≤ r.start ∨ r.stop ≤ pos

/-- The edits can all be applied to the text at once. -/
structure Placed (source : List Char) (edits : List Edit) : Prop where
  ordered : ∀ e ∈ edits, e.start ≤ e.stop
  start_boundary : ∀ e ∈ edits, Text.isBoundary e.start source = true
  stop_boundary : ∀ e ∈ edits, Text.isBoundary e.stop source = true
  apart : edits.Pairwise Apart
  clear : ∀ e ∈ edits, ∀ f ∈ edits, Clear e f

/-- An edit on its own is in order if its offsets are, and fall between characters. -/
theorem editFault_eq_none_iff (source : List Char) (e : Edit) :
    editFault source e = none ↔ e.start ≤ e.stop ∧ Text.isBoundary e.start source = true ∧
      Text.isBoundary e.stop source = true := by
  unfold editFault
  dsimp only
  constructor
  · intro h
    split at h
    · simp at h
    · rename_i hbounds
      simp only [Bool.or_eq_true, decide_eq_true_eq, not_or] at hbounds
      split at h
      · simp at h
      · split at h
        · simp at h
        · simp_all
  · rintro ⟨hle, hstart, hstop⟩
    have hwidth := Text.isBoundary_le_width hstop
    have hno : ¬ (decide (e.stop < e.start) || decide (Text.width source < e.stop)) = true := by
      simp only [Bool.or_eq_true, decide_eq_true_eq, not_or]
      omega
    simp only [if_neg hno, hstart, hstop, Bool.not_true, Bool.false_eq_true, if_false]

theorem mem_replacements {edits : List Edit} {r : Replacement} :
    r ∈ replacements edits ↔ ∃ e ∈ edits, replacement? e = some r := by
  simp [replacements, List.mem_mergeSort, List.mem_filterMap]

theorem replacements_by_start (edits : List Edit) :
    (replacements edits).Pairwise fun a b => a.start ≤ b.start := by
  have h := @List.pairwise_mergeSort _ (fun a b : Replacement => decide (a.start ≤ b.start))
    (by intro a b c; simp only [decide_eq_true_eq]; omega)
    (by intro a b; simp only [Bool.or_eq_true, decide_eq_true_eq]; omega)
    (edits.filterMap replacement?)
  exact h.imp (by simp)

/-- Filled ranges by their start overlap nowhere if none of the neighbours do. -/
theorem overlapFault_eq_none_iff {ranges : List Replacement}
    (hfilled : ∀ r ∈ ranges, r.start < r.stop) :
    overlapFault ranges = none ↔ ranges.Pairwise fun a b => a.stop ≤ b.start := by
  induction ranges with
  | nil => simp [overlapFault]
  | cons a ranges ih =>
    cases ranges with
    | nil => simp [overlapFault]
    | cons b rest =>
      have ih := ih fun r hr => hfilled r (List.mem_cons_of_mem a hr)
      rw [overlapFault]
      constructor
      · intro h
        split at h
        · simp at h
        · rename_i hab
          have hrest := ih.mp h
          refine List.pairwise_cons.mpr ⟨?_, hrest⟩
          intro r hr
          rcases List.mem_cons.mp hr with rfl | hr
          · omega
          · -- the neighbour of `a` lies between `a` and every later range
            have hb := hfilled b (by simp)
            have hbr := (List.pairwise_cons.mp hrest).1 r hr
            omega
      · intro h
        obtain ⟨ha, hrest⟩ := List.pairwise_cons.mp h
        have hab := ha b (by simp)
        rw [if_neg (by omega)]
        exact ih.mpr hrest

/-- For sorted ranges that hold something, lying apart and lying one behind the other are the same.
-/
theorem overlapFault_replacements_eq_none_iff {edits : List Edit} (hfilled : RangesFilled edits) :
    overlapFault (replacements edits) = none ↔ edits.Pairwise Apart := by
  have hfilled' : ∀ r ∈ replacements edits, r.start < r.stop := by
    intro r hr
    obtain ⟨e, he, hr⟩ := mem_replacements.mp hr
    exact hfilled e he r hr
  have hsorted := replacements_by_start edits
  have hperm : (replacements edits).Perm (edits.filterMap replacement?) := List.mergeSort_perm _ _
  have hsymm : (replacements edits).Pairwise
      (fun a b => a.stop ≤ b.start ∨ b.stop ≤ a.start) ↔ edits.Pairwise Apart := by
    rw [hperm.pairwise_iff (fun h => h.symm), List.pairwise_filterMap]
    rfl
  rw [overlapFault_eq_none_iff hfilled', ← hsymm]
  constructor
  · exact fun h => h.imp .inl
  · intro h
    have hboth := hsorted.and h
    refine hboth.imp_of_mem ?_
    intro a b ha hb hab
    have := hfilled' b hb
    omega

theorem mem_distinct {p : Nat} {positions : List Nat} :
    p ∈ distinct positions ↔ p ∈ positions := by
  fun_induction distinct positions with
  | case1 => simp
  | case2 => simp
  | case3 a b rest hab ih => simp_all
  | case4 a b rest hab ih => simp_all

/-- Without repeats, what does not decrease increases. -/
theorem distinct_increasing {positions : List Nat} (h : positions.Pairwise (· ≤ ·)) :
    (distinct positions).Pairwise (· < ·) := by
  fun_induction distinct positions with
  | case1 => simp
  | case2 => simp
  | case3 a b rest hab ih => exact ih (List.pairwise_cons.mp h).2
  | case4 a b rest hab ih =>
    obtain ⟨ha, hrest⟩ := List.pairwise_cons.mp h
    refine List.pairwise_cons.mpr ⟨?_, ih hrest⟩
    intro p hp
    have hb := ha b (by simp)
    have hne : a ≠ b := by simpa using hab
    rcases List.mem_cons.mp (mem_distinct.mp hp) with rfl | hp
    · omega
    · have := (List.pairwise_cons.mp hrest).1 p hp
      omega

theorem mem_increasing {p : Nat} {positions : List Nat} :
    p ∈ increasing positions ↔ p ∈ positions := by
  rw [increasing, mem_distinct, List.mem_mergeSort]

theorem increasing_strict (positions : List Nat) : (increasing positions).Pairwise (· < ·) := by
  have h := @List.pairwise_mergeSort _ (fun a b : Nat => decide (a ≤ b))
    (by intro a b c; simp only [decide_eq_true_eq]; omega)
    (by intro a b; simp only [Bool.or_eq_true, decide_eq_true_eq]; omega) positions
  exact distinct_increasing (h.imp (by simp))

/-- No insertion stands strictly inside of a range. -/
theorem insideFault_eq_none_iff (edits : List Edit) :
    insideFault (replacements edits) (insertPositions edits) = none ↔
      ∀ e ∈ edits, ∀ f ∈ edits, Clear e f := by
  unfold insideFault insertPositions
  simp only [List.findSome?_eq_none_iff, Option.map_eq_none_iff, List.find?_eq_none,
    mem_increasing, List.mem_filterMap, mem_replacements, Bool.and_eq_true, decide_eq_true_eq]
  constructor
  · intro h e he f hf pos hpos r hr
    have := h pos ⟨e, he, hpos⟩ r ⟨f, hf, hr⟩
    omega
  · rintro h pos ⟨e, he, hpos⟩ r ⟨f, hf, hr⟩
    have := h e he f hf pos hpos r hr
    omega

/-- The check finds no fault exactly in edits that can all be applied. -/
theorem fault_eq_none_iff {source : List Char} {edits : List Edit} (hfilled : RangesFilled edits) :
    fault source edits = none ↔ Placed source edits := by
  unfold fault
  rw [Option.or_eq_none_iff, Option.or_eq_none_iff,
    overlapFault_replacements_eq_none_iff hfilled, insideFault_eq_none_iff,
    List.findSome?_eq_none_iff]
  simp only [editFault_eq_none_iff]
  constructor
  · rintro ⟨hown, hapart, hclear⟩
    exact ⟨fun e he => (hown e he).1, fun e he => (hown e he).2.1, fun e he => (hown e he).2.2,
      hapart, hclear⟩
  · intro h
    exact ⟨fun e he => ⟨h.ordered e he, h.start_boundary e he, h.stop_boundary e he⟩, h.apart,
      h.clear⟩

end Splice

end RefSugar

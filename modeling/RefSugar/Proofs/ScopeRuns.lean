import RefSugar.Proofs.Counting

/-! Scopes after anything that can be done to them. Frames are opened and closed in any order, the root
included, and names are declared in any frame at any time, also in one that has been closed. Main
statements: the open frames are always the innermost one and those around it, and the counts are those
of the open frames; so the counts speak for unwrapping exactly where the nearest declaration does and
no ordinary declaration is open. -/
namespace RefSugar

namespace Scopes

inductive Op where
  | enter (kind : FrameKind)
  | leave
  | declare (kind : BindingKind) (frame : Nat) (name : String)
  deriving DecidableEq, Repr

def Op.apply (s : Scopes) : Op → Scopes
  | .enter kind => s.enter kind
  | .leave => s.leave
  | .declare kind frame name => s.declare kind frame name

def run (kind : FrameKind) (ops : List Op) : Scopes :=
  ops.foldl Op.apply (root kind)

def Ordered (s : Scopes) : Prop :=
  ∀ id parent : Nat, (s.shape[id]?).bind Prod.snd = some parent → parent < id

variable {s : Scopes} {id : Nat} {name : String}

theorem root_ordered (kind : FrameKind) : (root kind).Ordered := by
  intro id parent h
  cases id <;> simp [shape, root, enter] at h

/-- A new frame stands in one that was opened before. -/
theorem Ordered.enter (h : s.Ordered) (hcounted : s.Counted) (kind : FrameKind) :
    (s.enter kind).Ordered := by
  intro id parent hparent
  rw [enter_shape, List.getElem?_append] at hparent
  split at hparent
  · exact h id parent hparent
  · rename_i hid
    obtain ⟨entry, hentry, hsnd⟩ := Option.bind_eq_some_iff.mp hparent
    obtain rfl := List.mem_singleton.mp (List.mem_of_getElem? hentry)
    -- the new frame stands in an open one, which has a smaller number than all frames to come
    have hopen := hcounted.chained.lt_length (List.mem_of_head? hsnd)
    omega

theorem Op.apply_counted (h : s.Counted) (op : Op) : (apply s op).Counted := by
  cases op with
  | enter kind => exact h.enter kind
  | leave => exact h.leave
  | declare kind frame name => exact h.declare kind frame name

theorem Op.apply_ordered (h : s.Ordered) (hcounted : s.Counted) (op : Op) : (apply s op).Ordered := by
  cases op with
  | enter kind => exact h.enter hcounted kind
  | leave =>
    have hshape : s.leave.shape = s.shape := by rw [shape, shape, leave_frames]
    exact fun id parent hparent => h id parent (hshape ▸ hparent)
  | declare kind frame name =>
    exact fun id parent hparent => h id parent (s.declare_shape kind frame name ▸ hparent)

theorem foldl_apply_invariants (ops : List Op) (hcounted : s.Counted) (hordered : s.Ordered) :
    (ops.foldl Op.apply s).Counted ∧ (ops.foldl Op.apply s).Ordered := by
  induction ops generalizing s with
  | nil => exact ⟨hcounted, hordered⟩
  | cons op ops ih => exact ih (op.apply_counted hcounted) (op.apply_ordered hordered hcounted)

theorem run_counted (kind : FrameKind) (ops : List Op) : (run kind ops).Counted :=
  (foldl_apply_invariants ops (root_counted kind) (root_ordered kind)).1

theorem run_ordered (kind : FrameKind) (ops : List Op) : (run kind ops).Ordered :=
  (foldl_apply_invariants ops (root_counted kind) (root_ordered kind)).2

theorem Chained.mem_of_within {outer : Nat} {rest : List Nat} (h : Chained s.shape (id :: rest))
    (hwithin : s.Within outer id) : outer ∈ id :: rest := by
  induction hwithin generalizing rest with
  | self => exact List.mem_cons_self ..
  | @step id parent hparent _ ih =>
    cases h with
    | cons hrest hid _ =>
      have hhead : rest.head? = some parent := by simpa [hid] using hparent
      obtain ⟨further, rfl⟩ := List.head?_eq_some_iff.mp hhead
      exact List.mem_cons_of_mem _ (ih hrest)

theorem Chained.decreasing {shape : List (FrameKind × Option Nat)} {stack : List Nat}
    (h : Chained shape stack) : stack.Pairwise (· > ·) := by
  induction h with
  | nil => exact .nil
  | cons _ _ hlt ih => exact .cons hlt ih

/-- Before each of the steps that take back the names of the innermost frame, in whatever order, the
count of the name is positive. -/
theorem Counted.decrements_pos (h : s.Counted) {rest : List Nat} {f : Frame}
    (hstack : s.stack = id :: rest) (hf : s.frames[id]? = some f) {kind : BindingKind}
    {before after : List String} (hnames : (before ++ name :: after).Perm (f.names kind)) :
    0 < (before.foldl Tally.decrement (s.count kind)).get name := by
  have hnodup : (before ++ name :: after).Nodup :=
    hnames.nodup_iff.mpr (h.nodup f (List.mem_of_getElem? hf) kind)
  have hnew : name ∉ before := fun hmem =>
    (List.nodup_append.mp hnodup).2.2 name hmem name (List.mem_cons_self ..) rfl
  have hdeclares : s.declares kind name id = true :=
    declares_iff.mpr ⟨f, hf, hnames.subset (by simp)⟩
  have hpos : 0 < s.stack.countP (s.declares kind name) :=
    List.countP_pos_iff.mpr ⟨id, by simp [hstack], hdeclares⟩
  rwa [Tally.get_foldl_decrement, h.counts, List.count_eq_zero.mpr hnew, Nat.sub_zero]

structure Consistent (s : Scopes) : Prop where
  /-- The open frames exist, -/
  exist : ∀ id ∈ s.stack, id < s.frames.length
  /-- innermost first, the outer ones have smaller numbers, -/
  decreasing : s.stack.Pairwise (· > ·)
  /-- and they are the innermost one and all those around it. -/
  around : ∀ top rest, s.stack = top :: rest → ∀ id, id ∈ s.stack ↔ s.Within id top
  /-- Every frame stands in an earlier one, if in any. -/
  parents : ∀ (id : Nat) (f : Frame) (parent : Nat), s.frames[id]? = some f →
    f.parent = some parent → parent < id
  /-- The counts are the numbers of open frames that declare a name in the one or the other way, -/
  counts : ∀ kind name, (s.count kind).get name = s.stack.countP (s.declares kind name)
  /-- so that they tell whether some open frame unwraps a name and none declares it otherwise, -/
  active : ∀ name, s.isActiveUnwrap name = true ↔
    (∃ id ∈ s.stack, s.Declares id .unwrap name) ∧ ∀ id ∈ s.stack, ¬ s.Declares id .known name
  /-- and closing a frame never takes from a count of zero, in whatever order it takes its names. -/
  decrements : ∀ (top : Nat) (rest : List Nat) (f : Frame) (kind : BindingKind)
    (before after : List String) (name : String), s.stack = top :: rest → s.frames[top]? = some f →
    (before ++ name :: after).Perm (f.names kind) →
    0 < (before.foldl Tally.decrement (s.count kind)).get name

/-- Whatever is done to scopes, they are in order. -/
theorem run_consistent (kind : FrameKind) (ops : List Op) : (run kind ops).Consistent where
  exist := fun id hid => by
    have hlt := (run_counted kind ops).chained.lt_length hid
    rwa [length_shape] at hlt
  decreasing := (run_counted kind ops).chained.decreasing
  around := by
    intro top rest hstack id
    have hchained := (run_counted kind ops).chained
    rw [hstack] at hchained ⊢
    exact ⟨hchained.within, hchained.mem_of_within⟩
  parents := by
    intro id f parent hf hparent
    exact run_ordered kind ops id parent (by simp [shape_getElem?, hf, hparent])
  counts := (run_counted kind ops).counts
  active := fun name => (run_counted kind ops).isActiveUnwrap_iff
  decrements := fun _ _ _ _ _ _ _ hstack hf hnames =>
    (run_counted kind ops).decrements_pos hstack hf hnames

/-- As long as a frame is open, the counts speak for unwrapping a name if and only if its nearest
declaration does and no open frame declares it in the ordinary way. So they never do where the nearest
declaration is an ordinary one or missing. -/
theorem isActiveUnwrap_iff_resolve (kind : FrameKind) (ops : List Op) (name : String)
    (hopen : (run kind ops).stack ≠ []) :
    ((run kind ops).isActiveUnwrap name = true ↔
      (run kind ops).resolve (run kind ops).current name = some .unwrap ∧
        ∀ id ∈ (run kind ops).stack, ¬ (run kind ops).Declares id .known name) ∧
      ((run kind ops).resolve (run kind ops).current name ∈ [none, some .known] →
        (run kind ops).isActiveUnwrap name = false) := by
  have hcounted := run_counted kind ops
  have hchained := hcounted.chained
  obtain ⟨top, rest, hstack⟩ := List.exists_cons_of_ne_nil hopen
  rw [hstack] at hchained
  have hcurrent : (run kind ops).current = top := by simp [current, hstack]
  have hiff : (run kind ops).isActiveUnwrap name = true ↔
      (run kind ops).resolve (run kind ops).current name = some .unwrap ∧
        ∀ id ∈ (run kind ops).stack, ¬ (run kind ops).Declares id .known name := by
    rw [hcounted.isActiveUnwrap_iff, hcurrent, hstack]
    refine and_congr_left fun hknown => ?_
    exact (hchained.resolve_unwrap_iff hknown).symm
  refine ⟨hiff, fun hresolve => ?_⟩
  refine Bool.eq_false_iff.mpr fun hactive => ?_
  rw [(hiff.mp hactive).1] at hresolve
  simp at hresolve

/-- An inner frame unwraps a name that the root declares in the ordinary way: its nearest declaration
unwraps it, and the counts do not. A name of the inner frame alone is unwrapped by both. -/
theorem isActiveUnwrap_iff_resolve_inner :
    let s := run .program [.declare .known 0 "a", .enter .function, .declare .unwrap 1 "a",
      .declare .unwrap 1 "b"]
    s.stack ≠ [] ∧ (s.resolve s.current "a" = some .unwrap ∧ s.isActiveUnwrap "a" = false) ∧
      s.resolve s.current "b" = some .unwrap ∧ s.isActiveUnwrap "b" = true := by
  intro s
  have hopen : s.stack ≠ [] := by decide
  have hiff (name : String) := (isActiveUnwrap_iff_resolve .program _ name hopen).1
  refine ⟨hopen, ⟨by decide, Bool.eq_false_iff.mpr fun hactive => ?_⟩, by decide, ?_⟩
  · exact ((hiff "a").mp hactive).2 0 (by decide) (declares_iff.mp (by decide))
  · have hnone : ∀ id ∈ s.stack, ¬ s.declares .known "b" id = true := by decide
    exact (hiff "b").mpr ⟨by decide, fun id hid hknown => hnone id hid (declares_iff.mpr hknown)⟩

end Scopes

end RefSugar

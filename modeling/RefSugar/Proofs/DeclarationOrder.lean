import RefSugar.Proofs.ScopeRuns

/-! Names are resolved by what has been declared, and not by when. How frames stand in one another is
decided by opening and closing them, and what a frame declares by the declarations that name it. Main
statement: two runs that open and close the same frames and make the same declarations, in any order,
any number of times and at any time after the frame was opened, resolve every name alike, namely by the
nearest frame around that declares it. -/
namespace RefSugar

/-- What a frame answers. -/
theorem Frame.lookup_eq_some_iff {f : Frame} {name : String} {kind : BindingKind} :
    f.lookup name = some kind ↔
      name ∈ f.names kind ∧ (kind = .unwrap → name ∉ f.names .known) := by
  by_cases hknown : name ∈ f.known <;> by_cases hunwrap : name ∈ f.unwrap <;>
    cases kind <;> simp [lookup, names, hknown, hunwrap]

namespace Scopes

def Op.isDeclaration : Op → Bool
  | .declare _ _ _ => true
  | .enter _ | .leave => false

def Op.nesting (ops : List Op) : List Op :=
  ops.filter fun op => !op.isDeclaration

/-- Every declaration names a frame that has been opened before; `n` frames are there to begin with. -/
def Op.Timely : Nat → List Op → Prop
  | _, [] => True
  | n, .enter _ :: ops => Timely (n + 1) ops
  | n, .leave :: ops => Timely n ops
  | n, .declare _ frame _ :: ops => frame < n ∧ Timely n ops

/-- The frames are the same but for the names they declare, and so are the open ones. -/
structure Alike (s s' : Scopes) : Prop where
  shape : s.shape = s'.shape
  stack : s.stack = s'.stack

/-- Of the frames around frame `id`, itself included, `frame` is the nearest one that declares the name,
and it declares it as a binding of the kind. An ordinary declaration wins over the other kind. -/
structure Nearest (s : Scopes) (declared : Nat → BindingKind → String → Prop) (name : String)
    (id frame : Nat) (kind : BindingKind) : Prop where
  around : s.Within frame id
  declares : declared frame kind name
  wins : kind = .unwrap → ¬ declared frame .known name
  nearer : ∀ inner, s.Within inner id → s.Within frame inner → inner ≠ frame →
    ∀ other, ¬ declared inner other name

section Frames

variable {s s' : Scopes} {kind : BindingKind} {id frame outer : Nat} {name : String}

/-- Which frame is closed, and whether one is closed, does not depend on names. -/
theorem leave_stack (s : Scopes) : s.leave.stack =
    match s.stack with
    | [] => []
    | top :: rest =>
      if (s.shape[top]?).any (·.1 ≠ .expression) then rest else top :: rest := by
  cases hstack : s.stack with
  | nil => simp [leave, hstack]
  | cons top rest =>
    simp only [leave, hstack, shape_getElem?]
    cases s.frames[top]? with
    | none => simp [hstack]
    | some f => by_cases hkind : f.kind = .expression <;> simp [hkind, hstack]

theorem Alike.enter (h : s.Alike s') (kind : FrameKind) : (s.enter kind).Alike (s'.enter kind) where
  shape := by rw [enter_shape, enter_shape, h.shape, h.stack]
  stack := by
    have hlength : s.frames.length = s'.frames.length := by
      rw [← length_shape, h.shape, length_shape]
    simp [Scopes.enter, h.stack, hlength]

theorem Alike.leave (h : s.Alike s') : s.leave.Alike s'.leave where
  shape := by
    simp only [Scopes.shape, leave_frames]
    exact h.shape
  stack := by rw [leave_stack, leave_stack, h.stack, h.shape]

theorem Alike.declare (h : s.Alike s') (kind : BindingKind) (frame : Nat) (name : String) :
    (s.declare kind frame name).Alike s' where
  shape := (s.declare_shape kind frame name).trans h.shape
  stack := (declare_grows s kind frame name).stack.trans h.stack

/-- Leaving out the declarations changes neither the frames nor which of them are open. -/
theorem Alike.foldl_nesting (ops : List Op) (h : s.Alike s') :
    (ops.foldl Op.apply s).Alike ((Op.nesting ops).foldl Op.apply s') := by
  induction ops generalizing s s' with
  | nil => exact h
  | cons op ops ih =>
    cases op with
    | enter kind => exact ih (h.enter kind)
    | leave => exact ih h.leave
    | declare kind frame name => exact ih (h.declare kind frame name)

theorem run_alike (kind : FrameKind) (ops : List Op) :
    (run kind ops).Alike (run kind (Op.nesting ops)) :=
  Alike.foldl_nesting ops ⟨rfl, rfl⟩

/-- A frame declares what it was told to, at whatever time. -/
theorem foldl_declares_iff (ops : List Op) (htimely : Op.Timely s.frames.length ops) :
    (ops.foldl Op.apply s).Declares id kind name ↔
      s.Declares id kind name ∨ .declare kind id name ∈ ops := by
  induction ops generalizing s with
  | nil => simp
  | cons op ops ih =>
    rw [List.foldl_cons]
    cases op with
    | enter frameKind =>
      have hlength : (s.enter frameKind).frames.length = s.frames.length + 1 := by simp [enter]
      rw [Op.apply, ih (hlength ▸ htimely), enter_declares]
      simp
    | leave =>
      rw [Op.apply, ih (leave_frames s ▸ htimely), Declares, Declares, leave_frames]
      simp
    | declare other frame n =>
      obtain ⟨hframe, hrest⟩ := htimely
      have hlength : (s.declare other frame n).frames.length = s.frames.length := by
        rw [← length_shape, declare_shape, length_shape]
      rw [Op.apply, ih (hlength ▸ hrest), declare_declares hframe, List.mem_cons, or_assoc,
        Op.declare.injEq]
      grind

theorem run_declares_iff {root : FrameKind} {ops : List Op} (htimely : Op.Timely 1 ops) :
    (run root ops).Declares id kind name ↔ .declare kind id name ∈ ops := by
  have hroot : ¬ (Scopes.root root).Declares id kind name := by
    rw [Scopes.root, enter_declares]
    simp [Declares]
  exact (@foldl_declares_iff (Scopes.root root) kind id name ops htimely).trans (or_iff_right hroot)

end Frames

section Resolving

variable {s s' : Scopes} {kind : BindingKind} {id frame outer parent : Nat} {name : String}

/-- Of the frames around a frame, one is its parent or stands around that. -/
theorem within_iff (hparent : (s.shape[id]?).bind Prod.snd = some parent) :
    s.Within outer id ↔ outer = id ∨ s.Within outer parent := by
  constructor
  · intro h
    cases h with
    | self => exact .inl rfl
    | step hother h =>
      obtain rfl := Option.some.inj (hparent.symm.trans hother)
      exact .inr h
  · rintro (rfl | h)
    · exact .self
    · exact .step hparent h

theorem Within.eq_of_root (hroot : (s.shape[id]?).bind Prod.snd = none) (h : s.Within outer id) :
    outer = id := by
  cases h with
  | self => rfl
  | step hparent _ => simp [hroot] at hparent

theorem Ordered.within_le (h : s.Ordered) (hwithin : s.Within outer id) : outer ≤ id := by
  induction hwithin with
  | self => exact Nat.le_refl _
  | step hparent _ ih => exact Nat.le_trans ih (Nat.le_of_lt (h _ _ hparent))

theorem Within.of_shape (hshape : s.shape = s'.shape) (h : s.Within outer id) : s'.Within outer id := by
  induction h with
  | self => exact .self
  | step hparent _ ih => exact .step (hshape ▸ hparent) ih

/-- The nearest frame depends on how the frames stand and on what is declared. -/
theorem Nearest.congr {declared declared' : Nat → BindingKind → String → Prop}
    (hshape : s.shape = s'.shape)
    (hsame : ∀ frame kind name, declared frame kind name ↔ declared' frame kind name)
    (h : s.Nearest declared name id frame kind) : s'.Nearest declared' name id frame kind where
  around := h.around.of_shape hshape
  declares := (hsame frame kind name).mp h.declares
  wins := fun hkind => mt (hsame frame .known name).mpr (h.wins hkind)
  nearer := fun inner hinner hframe hne other => mt (hsame inner other name).mpr <|
    h.nearer inner (hinner.of_shape hshape.symm) (hframe.of_shape hshape.symm) hne other

/-- A frame that declares the name is the nearest one to itself. -/
theorem nearest_self {f : Frame} (hordered : s.Ordered) (hf : s.frames[id]? = some f)
    (hlookup : f.lookup name = some kind) {other : BindingKind} :
    (∃ frame, s.Nearest s.Declares name id frame other) ↔ some kind = some other := by
  have hown (k : BindingKind) : s.Declares id k name ↔ name ∈ f.names k := by simp [Declares, hf]
  have hanswer (k : BindingKind) : f.lookup name = some k ↔
      s.Declares id k name ∧ (k = .unwrap → ¬ s.Declares id .known name) := by
    rw [hown, hown, Frame.lookup_eq_some_iff]
  rw [← hlookup, hanswer]
  constructor
  · rintro ⟨frame, h⟩
    -- the frame itself declares the name, so no other one is nearer
    obtain rfl : id = frame := Decidable.byContradiction fun hne =>
      h.nearer id .self h.around hne kind ((hanswer kind).mp hlookup).1
    exact ⟨h.declares, h.wins⟩
  · rintro ⟨hdeclares, hwins⟩
    refine ⟨id, .self, hdeclares, hwins, fun inner hinner hself hne => ?_⟩
    exact absurd (Nat.le_antisymm (hordered.within_le hinner) (hordered.within_le hself)) hne

/-- A frame that does not declare the name leaves it to its parent. -/
theorem nearest_parent (hparent : (s.shape[id]?).bind Prod.snd = some parent)
    (hnone : ∀ k, ¬ s.Declares id k name) :
    s.Nearest s.Declares name id frame kind ↔ s.Nearest s.Declares name parent frame kind := by
  constructor
  · intro h
    have hframe : s.Within frame parent := by
      refine ((within_iff hparent).mp h.around).resolve_left ?_
      rintro rfl
      exact hnone kind h.declares
    exact ⟨hframe, h.declares, h.wins, fun inner hinner => h.nearer inner (.step hparent hinner)⟩
  · intro h
    refine ⟨.step hparent h.around, h.declares, h.wins, fun inner hinner hframe hne other => ?_⟩
    rcases (within_iff hparent).mp hinner with rfl | hinner
    · exact hnone other
    · exact h.nearer inner hinner hframe hne other

/-- Looking up a name from a frame finds the nearest declaration, if there are enough steps. -/
theorem resolveUpTo_eq_some_iff (hordered : s.Ordered) {fuel : Nat} (hfuel : id < fuel) :
    s.resolveUpTo name fuel (some id) = some kind ↔
      ∃ frame, s.Nearest s.Declares name id frame kind := by
  induction fuel generalizing id with
  | zero => omega
  | succ fuel ih =>
    cases hf : s.frames[id]? with
    | none =>
      have hroot : (s.shape[id]?).bind Prod.snd = none := by simp [shape_getElem?, hf]
      simp only [resolveUpTo, hf, reduceCtorEq, false_iff, not_exists]
      intro frame h
      obtain rfl := h.around.eq_of_root hroot
      obtain ⟨f, hframe, _⟩ := h.declares
      simp [hf] at hframe
    | some f =>
      simp only [resolveUpTo, hf]
      cases hlookup : f.lookup name with
      | some own => exact (nearest_self hordered hf hlookup).symm
      | none =>
        have hnone (k : BindingKind) : ¬ s.Declares id k name := by
          rintro ⟨g, hg, hname⟩
          obtain rfl := Option.some.inj (hf.symm.trans hg)
          have habsent := (f.lookup_iff name).2.mp hlookup
          cases k with
          | known => exact habsent.2 hname
          | unwrap => exact habsent.1 hname
        have hparents : (s.shape[id]?).bind Prod.snd = f.parent := by simp [shape_getElem?, hf]
        cases hparent : f.parent with
        | none =>
          have hempty : s.resolveUpTo name fuel none = none := by cases fuel <;> rfl
          simp only [hempty, reduceCtorEq, false_iff, not_exists]
          intro frame h
          obtain rfl := h.around.eq_of_root (hparents.trans hparent)
          exact hnone kind h.declares
        | some parent =>
          -- the parent has a smaller number, so one step less is still enough
          have hparents := hparents.trans hparent
          have hlt := hordered id parent hparents
          rw [ih (by omega)]
          exact exists_congr fun frame => (nearest_parent hparents hnone).symm

end Resolving

/-- A run resolves a name by the nearest declaration that it has made, as the frames stand that it has
opened. -/
theorem run_resolve_iff (root : FrameKind) {ops : List Op} (htimely : Op.Timely 1 ops) {id : Nat}
    {name : String} {kind : BindingKind} :
    (run root ops).resolve id name = some kind ↔
      ∃ frame, (run root (Op.nesting ops)).Nearest
        (fun frame kind name => .declare kind frame name ∈ ops) name id frame kind := by
  have hordered := run_ordered root ops
  have hshape := (run_alike root ops).shape
  have hdeclares (frame : Nat) (kind : BindingKind) (name : String) :
      (run root ops).Declares frame kind name ↔ .declare kind frame name ∈ ops :=
    run_declares_iff htimely
  have hnearest : (run root ops).resolve id name = some kind ↔
      ∃ frame, (run root ops).Nearest (run root ops).Declares name id frame kind := by
    by_cases hid : id < (run root ops).frames.length
    · exact resolveUpTo_eq_some_iff hordered (by omega)
    · -- there is no such frame, so one step is enough
      rw [← @resolveUpTo_eq_some_iff _ kind id name hordered (id + 1) (by omega)]
      have hnone : (run root ops).frames[id]? = none := by simpa using hid
      simp [resolve, resolveUpTo, hnone]
  rw [hnearest]
  -- what the frames declare in the end is what has been declared, at whatever time
  exact exists_congr fun frame => ⟨.congr hshape hdeclares, .congr hshape.symm fun f k n =>
    (hdeclares f k n).symm⟩

/-- Two runs that open and close the same frames and make the same declarations, at whatever times
after the frames were opened and however often, resolve every name alike: from every frame they find
the nearest frame around that declares it, and of the two kinds in one frame the ordinary one. -/
theorem resolve_of_same_declarations (root : FrameKind) {ops ops' : List Op}
    (hnesting : Op.nesting ops = Op.nesting ops')
    (hsame : ∀ kind frame name, .declare kind frame name ∈ ops ↔ .declare kind frame name ∈ ops')
    (htimely : Op.Timely 1 ops) (htimely' : Op.Timely 1 ops') (id : Nat) (name : String) :
    (run root ops).resolve id name = (run root ops').resolve id name ∧
      ∀ kind, (run root ops).resolve id name = some kind ↔
        ∃ frame, (run root (Op.nesting ops)).Nearest
          (fun frame kind name => .declare kind frame name ∈ ops) name id frame kind := by
  refine ⟨Option.ext fun kind => ?_, fun kind => run_resolve_iff root htimely⟩
  rw [run_resolve_iff root htimely, run_resolve_iff root htimely', ← hnesting]
  exact exists_congr fun frame => ⟨.congr rfl fun f k n => hsame k f n,
    .congr rfl fun f k n => (hsame k f n).symm⟩

/-- The names of the root and of a function are declared as soon as they can be, or after all frames
have been closed, and one of them twice. From the block in the function the name is an ordinary one
either way. -/
theorem resolve_of_same_declarations_late :
    let early : List Op := [.declare .unwrap 0 "a", .enter .function, .declare .unwrap 1 "a",
      .declare .known 1 "a", .enter .block, .leave, .leave]
    let late : List Op := [.enter .function, .enter .block, .leave, .leave, .declare .known 1 "a",
      .declare .unwrap 1 "a", .declare .unwrap 0 "a", .declare .known 1 "a"]
    Op.nesting early = Op.nesting late ∧
      (∀ kind frame name, .declare kind frame name ∈ early ↔ .declare kind frame name ∈ late) ∧
      (run .program early).resolve 2 "a" = (run .program late).resolve 2 "a" ∧
      (run .program late).resolve 2 "a" = some .known := by
  intro early late
  have hnesting : Op.nesting early = Op.nesting late := by decide
  have hsame (kind : BindingKind) (frame : Nat) (name : String) :
      .declare kind frame name ∈ early ↔ .declare kind frame name ∈ late := by
    simp only [early, late, List.mem_cons, Op.declare.injEq, reduceCtorEq, List.not_mem_nil]
    grind
  have hresolve := (resolve_of_same_declarations .program hnesting hsame (by simp [early, Op.Timely])
    (by simp [late, Op.Timely]) 2 "a").1
  exact ⟨hnesting, hsame, hresolve, by decide⟩

end Scopes

end RefSugar

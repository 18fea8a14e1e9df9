import RefSugar.Proofs.WalkEdits

/-! Frames while a run goes on. Frames are only added, an open frame stays where it is, and what a
frame declares is what has been declared in it. -/
namespace RefSugar

def Frame.names (f : Frame) : BindingKind → List String
  | .known => f.known
  | .unwrap => f.unwrap

/-- The answer of a frame, by what it declares. -/
theorem Frame.lookup_iff (f : Frame) (name : String) :
    (f.lookup name = some .unwrap ↔ name ∈ f.unwrap ∧ name ∉ f.known) ∧
      (f.lookup name = none ↔ name ∉ f.unwrap ∧ name ∉ f.known) := by
  by_cases hknown : name ∈ f.known <;> by_cases hunwrap : name ∈ f.unwrap <;>
    simp [lookup, hknown, hunwrap]

theorem Frame.mem_names_of_lookup {f : Frame} {name : String} {kind : BindingKind}
    (h : f.lookup name = some kind) : name ∈ f.names kind := by
  by_cases hknown : name ∈ f.known <;> by_cases hunwrap : name ∈ f.unwrap <;>
    cases kind <;> simp_all [lookup, names]

namespace Scopes

def Declares (s : Scopes) (id : Nat) (kind : BindingKind) (name : String) : Prop :=
  ∃ f, s.frames[id]? = some f ∧ name ∈ f.names kind

def declare (s : Scopes) (kind : BindingKind) (frame : Nat) (name : String) : Scopes :=
  match kind with
  | .known => s.declareKnown frame name
  | .unwrap => s.declareUnwrap frame name

def shape (s : Scopes) : List (FrameKind × Option Nat) :=
  s.frames.map fun f => (f.kind, f.parent)

/-- The later scopes have the frames of the earlier ones, of which the same are open. -/
structure Grows (s s' : Scopes) : Prop where
  stack : s'.stack = s.stack
  shape : s.shape <+: s'.shape

/-- Some frame is open that hoisted declarations can go to. -/
structure IsOpen (s : Scopes) : Prop where
  held : ∀ id ∈ s.stack, id < s.frames.length
  target : ∃ id ∈ s.stack, (s.frames[id]?).any (·.kind.isHoistTarget) = true

theorem find?_eq_of_forall {α : Type} {p q : α → Bool} {l : List α} (h : ∀ a ∈ l, p a = q a) :
    l.find? p = l.find? q := by
  induction l with
  | nil => rfl
  | cons a l ih =>
    obtain ⟨ha, hl⟩ := List.forall_mem_cons.mp h
    rw [List.find?_cons, List.find?_cons, ha, ih hl]

section Frames

variable {s s' s'' : Scopes} {kind : BindingKind} {frame id : Nat} {name : String}

theorem length_shape (s : Scopes) : s.shape.length = s.frames.length := by
  simp [shape]

theorem shape_getElem? (s : Scopes) (id : Nat) :
    s.shape[id]? = (s.frames[id]?).map fun f => (f.kind, f.parent) := by
  simp [shape]

theorem Grows.refl (s : Scopes) : s.Grows s :=
  ⟨rfl, List.prefix_refl _⟩

theorem Grows.trans (h : s.Grows s') (h' : s'.Grows s'') : s.Grows s'' :=
  ⟨h'.stack.trans h.stack, h.shape.trans h'.shape⟩

theorem Grows.length_le (h : s.Grows s') : s.frames.length ≤ s'.frames.length := by
  have := h.shape.length_le
  rwa [length_shape, length_shape] at this

/-- A frame keeps its kind and its parent. -/
theorem shape_eq_of_prefix (h : s.shape <+: s'.shape) (hid : id < s.frames.length) :
    s'.shape[id]? = s.shape[id]? := by
  obtain ⟨more, hmore⟩ := h
  rw [← hmore, List.getElem?_append_left (by rwa [length_shape])]

theorem Grows.shape_eq (h : s.Grows s') (hid : id < s.frames.length) :
    s'.shape[id]? = s.shape[id]? :=
  shape_eq_of_prefix h.shape hid

theorem isHoistTarget_eq (s : Scopes) (id : Nat) :
    (s.frames[id]?).any (·.kind.isHoistTarget) = (s.shape[id]?).any (·.1.isHoistTarget) := by
  rw [shape_getElem?]
  cases s.frames[id]? <;> rfl

theorem Grows.isOpen (h : s.Grows s') (hopen : s.IsOpen) : s'.IsOpen := by
  refine ⟨fun id hid => ?_, ?_⟩
  · exact Nat.lt_of_lt_of_le (hopen.held id (h.stack ▸ hid)) h.length_le
  · obtain ⟨id, hid, htarget⟩ := hopen.target
    refine ⟨id, h.stack ▸ hid, ?_⟩
    rwa [isHoistTarget_eq, h.shape_eq (hopen.held id hid), ← isHoistTarget_eq]

/-- Declarations go to the same frame as before. -/
theorem Grows.frame_eq (h : s.Grows s') (hopen : s.IsOpen) (place : Walk.Place) :
    place.frame s' = place.frame s := by
  cases place with
  | current => simp [Walk.Place.frame, current, h.stack]
  | hoisted =>
    have hsame : ∀ id ∈ s.stack, (s'.frames[id]?).any (·.kind.isHoistTarget) =
        (s.frames[id]?).any (·.kind.isHoistTarget) := by
      intro id hid
      rw [isHoistTarget_eq, h.shape_eq (hopen.held id hid), ← isHoistTarget_eq]
    simp only [Walk.Place.frame, hoistTarget, h.stack]
    rw [find?_eq_of_forall hsame]

/-- A declaration goes to an open frame. -/
theorem IsOpen.frame_mem (h : s.IsOpen) (place : Walk.Place) : place.frame s ∈ s.stack := by
  obtain ⟨id, hid, htarget⟩ := h.target
  cases place with
  | current =>
    cases hstack : s.stack with
    | nil => simp [hstack] at hid
    | cons id rest => simp [Walk.Place.frame, current, hstack]
  | hoisted =>
    have hsome : (s.stack.find? fun id => (s.frames[id]?).any (·.kind.isHoistTarget)).isSome = true :=
      List.find?_isSome.mpr ⟨id, hid, htarget⟩
    obtain ⟨found, hfound⟩ := Option.isSome_iff_exists.mp hsome
    rw [Walk.Place.frame, hoistTarget, hfound]
    exact List.mem_of_find?_eq_some hfound

theorem IsOpen.frame_lt (h : s.IsOpen) (place : Walk.Place) : place.frame s < s.frames.length :=
  h.held _ (h.frame_mem place)

/-- A declaration changes nothing but the names of its frame. -/
theorem declare_cases (s : Scopes) (kind : BindingKind) (frame : Nat) (name : String) :
    (s.declare kind frame name).stack = s.stack ∧
      ((s.declare kind frame name).frames = s.frames ∧ (frame < s.frames.length →
          s.Declares frame kind name) ∨
        ∃ f f', s.frames[frame]? = some f ∧
          (s.declare kind frame name).frames = s.frames.set frame f' ∧ f'.kind = f.kind ∧
          f'.parent = f.parent ∧ ∀ other n, n ∈ f'.names other ↔
            n ∈ f.names other ∨ other = kind ∧ n = name) := by
  cases hf : s.frames[frame]? with
  | none =>
    have hout : ¬ frame < s.frames.length := by simpa using hf
    cases kind <;> simp [declare, declareKnown, declareUnwrap, hout]
  | some f =>
    cases kind with
    | known =>
      simp only [declare, declareKnown, hf]
      split
      · rename_i hknown
        exact ⟨rfl, .inl ⟨rfl, fun _ => ⟨f, hf, by simpa [Frame.names] using hknown⟩⟩⟩
      · refine ⟨rfl, .inr ⟨f, _, rfl, rfl, rfl, rfl, fun other n => ?_⟩⟩
        cases other <;> simp [Frame.names]
    | unwrap =>
      simp only [declare, declareUnwrap, hf]
      split
      · rename_i hunwrap
        exact ⟨rfl, .inl ⟨rfl, fun _ => ⟨f, hf, by simpa [Frame.names] using hunwrap⟩⟩⟩
      · refine ⟨rfl, .inr ⟨f, _, rfl, rfl, rfl, rfl, fun other n => ?_⟩⟩
        cases other <;> simp [Frame.names]

/-- A declaration opens and closes nothing. -/
theorem declare_shape (s : Scopes) (kind : BindingKind) (frame : Nat) (name : String) :
    (s.declare kind frame name).shape = s.shape := by
  obtain ⟨_, ⟨hframes, _⟩ | ⟨f, f', hf, hframes, hkind, hparent, _⟩⟩ :=
    declare_cases s kind frame name
  · rw [shape, shape, hframes]
  · refine List.ext_getElem? fun id => ?_
    rw [shape_getElem?, shape_getElem?, hframes, List.getElem?_set]
    split
    · rename_i hid
      subst hid
      split
      · simp [hf, hkind, hparent]
      · simp_all
    · rfl

theorem declare_grows (s : Scopes) (kind : BindingKind) (frame : Nat) (name : String) :
    s.Grows (s.declare kind frame name) :=
  ⟨(declare_cases s kind frame name).1, s.declare_shape kind frame name ▸ List.prefix_refl _⟩

/-- A frame declares what it did and what is declared in it. -/
theorem declare_declares (hframe : frame < s.frames.length) {other : BindingKind} {n : String} :
    (s.declare kind frame name).Declares id other n ↔
      s.Declares id other n ∨ id = frame ∧ other = kind ∧ n = name := by
  obtain ⟨_, ⟨hframes, halready⟩ | ⟨f, f', hf, hframes, _, _, hnames⟩⟩ :=
    declare_cases s kind frame name
  · simp only [Declares, hframes]
    constructor
    · exact .inl
    · rintro (h | ⟨rfl, rfl, rfl⟩)
      · exact h
      · exact halready hframe
  · simp only [Declares, hframes]
    by_cases hid : id = frame
    · subst hid
      simp only [List.getElem?_set_self hframe, hf, Option.some.injEq, exists_eq_left', hnames,
        true_and]
    · simp [List.getElem?_set_ne (Ne.symm hid), hid]

/-- A new frame is open, declares nothing and stands in the innermost open one. -/
theorem enter_shape (s : Scopes) (kind : FrameKind) :
    (s.enter kind).shape = s.shape ++ [(kind, s.stack.head?)] := by
  simp [shape, enter]

/-- A new frame declares nothing. -/
theorem enter_declares {kind : FrameKind} {other : BindingKind} {n : String} :
    (s.enter kind).Declares id other n ↔ s.Declares id other n := by
  simp only [Declares, enter]
  by_cases hid : id < s.frames.length
  · rw [List.getElem?_append_left hid]
  · have hnone : s.frames[id]? = none := by simpa using hid
    constructor
    · rintro ⟨f, hf, hn⟩
      rw [List.getElem?_append_right (by omega)] at hf
      obtain rfl := List.mem_singleton.mp (List.mem_of_getElem? hf)
      cases other <;> simp [Frame.names] at hn
    · rintro ⟨f, hf, _⟩
      simp [hnone] at hf

theorem enter_isOpen (h : s.IsOpen) (kind : FrameKind) : (s.enter kind).IsOpen := by
  obtain ⟨id, hid, htarget⟩ := h.target
  refine ⟨?_, id, by simp [enter, hid], ?_⟩
  · simp only [enter, List.length_append, List.length_singleton, List.forall_mem_cons]
    exact ⟨Nat.lt_succ_self _, fun id hid => Nat.lt_succ_of_lt (h.held id hid)⟩
  · simp only [enter]
    rwa [List.getElem?_append_left (h.held id hid)]

theorem enter_frame_current (s : Scopes) (kind : FrameKind) :
    Walk.Place.frame (s.enter kind) .current = s.frames.length := by
  simp [Walk.Place.frame, current, enter]

/-- A hoisted declaration stays in a new frame that takes it. -/
theorem enter_frame_hoisted (h : s.IsOpen) (kind : FrameKind) :
    Walk.Place.frame (s.enter kind) .hoisted =
      if kind.isHoistTarget then s.frames.length else Walk.Place.frame s .hoisted := by
  have hnew : (s.enter kind).frames[s.frames.length]? = some { kind, parent := s.stack.head? } := by
    simp [enter]
  have hold : ∀ id ∈ s.stack, (s.enter kind).frames[id]? = s.frames[id]? := by
    intro id hid
    simp only [enter]
    exact List.getElem?_append_left (h.held id hid)
  have hstack : (s.enter kind).stack = s.frames.length :: s.stack := rfl
  simp only [Walk.Place.frame, hoistTarget, hstack, List.find?_cons, hnew, Option.any_some]
  cases kind.isHoistTarget with
  | true => rfl
  | false =>
    simp only [Bool.false_eq_true, if_false]
    rw [find?_eq_of_forall fun id hid => by rw [hold id hid]]

theorem leave_eq {kind : FrameKind} {parent : Option Nat} {rest : List Nat}
    (hstack : s.stack = id :: rest) (hshape : s.shape[id]? = some (kind, parent))
    (hkind : kind ≠ .expression) : s.leave.stack = rest ∧ s.leave.frames = s.frames := by
  rw [shape_getElem?] at hshape
  obtain ⟨f, hf, heq⟩ := Option.map_eq_some_iff.mp hshape
  obtain ⟨rfl, rfl⟩ : f.kind = kind ∧ f.parent = parent := by simpa using heq
  simp [leave, hstack, hf, hkind]

theorem leave_frames (s : Scopes) : s.leave.frames = s.frames := by
  unfold leave
  split
  · rfl
  · split
    · rfl
    · split <;> rfl

/-- Only the frames count when a name is resolved, and not which of them are open. -/
theorem resolve_leave (s : Scopes) (frame : Nat) (name : String) :
    s.leave.resolve frame name = s.resolve frame name := by
  have hupTo (fuel : Nat) (id : Option Nat) :
      s.leave.resolveUpTo name fuel id = s.resolveUpTo name fuel id := by
    induction fuel generalizing id with
    | zero => rfl
    | succ fuel ih => cases id <;> simp [resolveUpTo, leave_frames, ih]
  rw [resolve, resolve, hupTo, leave_frames]

end Frames

end Scopes

namespace Walk

structure Decl where
  place : Place
  kind : BindingKind
  name : String

/-- What an event declares. A plan declares its fields as bindings to unwrap, and its rest as an
ordinary one. -/
def Event.decls : Event → List Decl
  | .known place name => [⟨place, .known, name⟩]
  | .unwrap place name => [⟨place, .unwrap, name⟩]
  | .unpack place plan _ =>
    plan.fieldNames.map (⟨place, .unwrap, ·⟩) ++ plan.restName?.toList.map (⟨place, .known, ·⟩)
  | _ => []

def Event.isFrame : Event → Bool
  | .enter _ | .leave => true
  | _ => false

namespace Run

variable {source : List Char}

/-- Events that open and close nothing declare what they tell. -/
theorem step_scopes (r : Run) {event : Event} (h : event.isFrame = false) :
    (r.step source event).scopes =
      event.decls.foldl (fun s d => s.declare d.kind (d.place.frame r.scopes) d.name) r.scopes := by
  cases event with
  | enter kind | leave => simp [Event.isFrame] at h
  | unpack place plan stop =>
    rw [step, unpack_eq]
    simp only [Event.decls, List.foldl_append, List.foldl_map, Scopes.declare]
  | _ => rfl

end Run

end Walk

end RefSugar

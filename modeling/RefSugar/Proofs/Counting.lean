import RefSugar.Proofs.Frames

/-! Open frames and counts. At any time the open frames are the innermost one, its parent, the parent
of that and so on, and the counts tell for each name how many of the open frames declare it. So what
the counts say about a name is what the frames around say. -/
namespace RefSugar

namespace Tally

variable {t : Tally} {name other : String}

theorem lookup_filter_ne (entries : List (String × Nat)) (h : other ≠ name) :
    (entries.filter (·.1 != name)).lookup other = entries.lookup other := by
  induction entries with
  | nil => rfl
  | cons entry entries ih =>
    obtain ⟨key, n⟩ := entry
    by_cases hkey : key = name
    · subst hkey
      have hother : (other == key) = false := by simpa using h
      simp [List.lookup_cons, hother, ih]
    · have hkept : (key != name) = true := by simpa using hkey
      simp only [List.filter_cons, hkept, if_true, List.lookup_cons, ih]

theorem get_put (t : Tally) (name other : String) (n : Nat) :
    (t.put name n).get other = if other = name then n else t.get other := by
  simp only [get, put, List.lookup_cons]
  by_cases h : other = name
  · simp [h]
  · have hother : (other == name) = false := by simpa using h
    simp [h, hother, lookup_filter_ne _ h]

theorem get_increment (t : Tally) (name other : String) :
    (t.increment name).get other = t.get other + if other = name then 1 else 0 := by
  rw [increment, get_put]
  split
  · rename_i h
    rw [h]
  · rfl

theorem get_foldl_decrement (names : List String) (t : Tally) (other : String) :
    (names.foldl decrement t).get other = t.get other - names.count other := by
  induction names generalizing t with
  | nil => simp
  | cons name names ih =>
    rw [List.foldl_cons, ih, decrement, get_put, List.count_cons]
    by_cases h : name = other
    · subst h
      simp
      omega
    · simp [h, Ne.symm h]

end Tally

def Frame.add (f : Frame) : BindingKind → String → Frame
  | .known, name => { f with known := f.known ++ [name] }
  | .unwrap, name => { f with unwrap := f.unwrap ++ [name] }

theorem Frame.names_add (f : Frame) (kind other : BindingKind) (name : String) :
    (f.add kind name).names other = f.names other ++ if other = kind then [name] else [] := by
  cases kind <;> cases other <;> simp [add, names]

namespace Scopes

/-- Each of the frames stands in the next one, and the last one stands in none. -/
inductive Chained (shape : List (FrameKind × Option Nat)) : List Nat → Prop
  | nil : Chained shape []
  | cons {id : Nat} {kind : FrameKind} {rest : List Nat} (h : Chained shape rest)
    (hid : shape[id]? = some (kind, rest.head?)) (hlt : ∀ outer ∈ rest, outer < id) :
    Chained shape (id :: rest)

def count (s : Scopes) : BindingKind → Tally
  | .known => s.knownCount
  | .unwrap => s.unwrapCount

def declares (s : Scopes) (kind : BindingKind) (name : String) (id : Nat) : Bool :=
  (s.frames[id]?).any fun f => (f.names kind).contains name

/-- The open frames form a chain, no frame declares a name twice in the same way, and the counts are
right. -/
structure Counted (s : Scopes) : Prop where
  chained : Chained s.shape s.stack
  nodup : ∀ f ∈ s.frames, ∀ kind, (f.names kind).Nodup
  counts : ∀ kind name, (s.count kind).get name = s.stack.countP (s.declares kind name)

section Chains

variable {shape shape' : List (FrameKind × Option Nat)} {stack : List Nat} {id : Nat}

theorem Chained.lt_length (h : Chained shape stack) (hid : id ∈ stack) : id < shape.length := by
  induction h with
  | nil => cases hid
  | cons _ hshape _ ih =>
    rcases List.mem_cons.mp hid with rfl | hid
    · exact (List.getElem?_eq_some_iff.mp hshape).1
    · exact ih hid

theorem Chained.nodup (h : Chained shape stack) : stack.Nodup := by
  induction h with
  | nil => exact List.nodup_nil
  | cons _ _ hlt ih =>
    exact List.nodup_cons.mpr ⟨fun hmem => Nat.lt_irrefl _ (hlt _ hmem), ih⟩

theorem Chained.mono (h : Chained shape stack) (hmore : shape <+: shape') :
    Chained shape' stack := by
  induction h with
  | nil => exact .nil
  | @cons id kind rest _ hshape hlt ih =>
    obtain ⟨more, rfl⟩ := hmore
    have hkept : (shape ++ more)[id]? = some (kind, rest.head?) := by
      rwa [List.getElem?_append_left (List.getElem?_eq_some_iff.mp hshape).1]
    exact .cons ih hkept hlt

/-- Inside of a frame its number only grows. -/
theorem Chained.length_le {rest : List Nat} (h : Chained shape (id :: rest)) : rest.length ≤ id := by
  induction rest generalizing id with
  | nil => exact Nat.zero_le _
  | cons outer rest ih =>
    cases h with
    | cons hrest _ hlt =>
      have hle := ih hrest
      have houter := hlt outer (by simp)
      simp only [List.length_cons]
      omega

end Chains

theorem countP_or {α : Type} {p q : α → Bool} {l : List α}
    (h : ∀ a ∈ l, ¬ (p a = true ∧ q a = true)) :
    l.countP (fun a => p a || q a) = l.countP p + l.countP q := by
  induction l with
  | nil => rfl
  | cons a l ih =>
    obtain ⟨ha, hl⟩ := List.forall_mem_cons.mp h
    rw [List.countP_cons, List.countP_cons, List.countP_cons, ih hl]
    cases hp : p a <;> cases hq : q a <;> simp_all <;> omega

section Counts

variable {s : Scopes} {kind : BindingKind} {frame id : Nat} {name : String}

theorem declares_iff : s.declares kind name id = true ↔ s.Declares id kind name := by
  rw [declares, Declares, Option.any_eq_true]
  simp

theorem root_counted (kind : FrameKind) : (root kind).Counted where
  chained := .cons .nil rfl (by simp)
  nodup := by
    intro f hf kind
    obtain rfl := List.mem_singleton.mp hf
    cases kind <;> exact List.nodup_nil
  counts := by
    intro kind name
    cases kind <;> simp [root, enter, count, Tally.get, declares, Frame.names]

/-- Opening a frame counts nothing. -/
theorem Counted.enter (h : s.Counted) (kind : FrameKind) : (s.enter kind).Counted where
  chained := by
    have hnew : (s.shape ++ [(kind, s.stack.head?)])[s.frames.length]? =
        some (kind, s.stack.head?) := by
      rw [← length_shape, List.getElem?_append_right (Nat.le_refl _), Nat.sub_self]
      rfl
    rw [enter_shape]
    refine .cons (h.chained.mono (List.prefix_append _ _)) hnew ?_
    intro outer houter
    have hlt := h.chained.lt_length houter
    rwa [length_shape] at hlt
  nodup := by
    intro f hf other
    rcases List.mem_append.mp hf with hf | hf
    · exact h.nodup f hf other
    · obtain rfl := List.mem_singleton.mp hf
      cases other <;> exact List.nodup_nil
  counts := by
    intro other name
    have hsame (id : Nat) : (s.enter kind).declares other name id = s.declares other name id := by
      rw [Bool.eq_iff_iff, declares_iff, declares_iff, enter_declares]
    -- the new frame declares nothing yet
    have hnew : s.declares other name s.frames.length = false := by
      simp [declares]
    have hstack : (s.enter kind).stack = s.frames.length :: s.stack := rfl
    have hcount : (s.enter kind).count other = s.count other := by cases other <;> rfl
    rw [hcount, hstack, List.countP_cons_of_neg (by rw [hsame, hnew]; simp), h.counts]
    exact List.countP_congr fun id _ => by rw [hsame]

/-- Closing a frame takes its names out of the counts, unless no frame is open. -/
theorem leave_cases (s : Scopes) : s.leave = s ∨
    ∃ id rest f, s.stack = id :: rest ∧ s.frames[id]? = some f ∧ s.leave.stack = rest ∧
      ∀ kind, s.leave.count kind = (f.names kind).foldl Tally.decrement (s.count kind) := by
  cases hstack : s.stack with
  | nil => exact .inl (by simp [leave, hstack])
  | cons id rest =>
    cases hf : s.frames[id]? with
    | none => exact .inl (by simp [leave, hstack, hf])
    | some f =>
      by_cases hkind : f.kind = .expression
      · exact .inl (by simp [leave, hstack, hf, hkind])
      · refine .inr ⟨id, rest, f, rfl, hf, by simp [leave, hstack, hf, hkind], fun kind => ?_⟩
        cases kind <;> simp [leave, hstack, hf, hkind, count, Frame.names]

/-- Closing a frame keeps the counts right. -/
theorem Counted.leave (h : s.Counted) : s.leave.Counted := by
  rcases leave_cases s with heq | ⟨id, rest, f, hstack, hf, hleft, hcounts⟩
  · rwa [heq]
  · have hshape : s.leave.shape = s.shape := by rw [shape, shape, leave_frames]
    refine ⟨?_, ?_, fun kind name => ?_⟩
    · have hchained := h.chained
      rw [hstack] at hchained
      cases hchained with
      | cons hrest _ _ => rwa [hshape, hleft]
    · rw [leave_frames]
      exact h.nodup
    · have hsame (other : Nat) : s.leave.declares kind name other = s.declares kind name other := by
        rw [declares, declares, leave_frames]
      have hcount : (f.names kind).count name = if s.declares kind name id then 1 else 0 := by
        have hnodup := h.nodup f (List.mem_of_getElem? hf) kind
        simp [declares, hf, hnodup.count]
      rw [hcounts, Tally.get_foldl_decrement, h.counts, hstack, hleft, List.countP_cons, hcount,
        Nat.add_sub_cancel]
      exact List.countP_congr fun other _ => by rw [hsame]

/-- A declaration either finds the name declared, or no such frame, or adds the name to the frame and
counts it if the frame is open. -/
theorem declare_eq (s : Scopes) (kind : BindingKind) (frame : Nat) (name : String) :
    s.declare kind frame name = s ∨
      ∃ f, s.frames[frame]? = some f ∧ name ∉ f.names kind ∧
        (s.declare kind frame name).stack = s.stack ∧
        (s.declare kind frame name).frames = s.frames.set frame (f.add kind name) ∧
        ∀ other, (s.declare kind frame name).count other =
          if other = kind ∧ frame ∈ s.stack then (s.count other).increment name
          else s.count other := by
  cases hf : s.frames[frame]? with
  | none => exact .inl (by cases kind <;> simp [declare, declareKnown, declareUnwrap, hf])
  | some f =>
    by_cases hmem : name ∈ f.names kind
    · left
      cases kind <;> simp_all [declare, declareKnown, declareUnwrap, Frame.names]
    · right
      refine ⟨f, rfl, hmem, ?_⟩
      cases kind with
      | known =>
        have hmem : name ∉ f.known := hmem
        refine ⟨by simp [declare, declareKnown, hf, hmem], ?_, fun other => ?_⟩
        · simp [declare, declareKnown, hf, hmem, Frame.add]
        · cases other <;> simp [declare, declareKnown, hf, hmem, count, isOpen]
      | unwrap =>
        have hmem : name ∉ f.unwrap := hmem
        refine ⟨by simp [declare, declareUnwrap, hf, hmem], ?_, fun other => ?_⟩
        · simp [declare, declareUnwrap, hf, hmem, Frame.add]
        · cases other <;> simp [declare, declareUnwrap, hf, hmem, count, isOpen]

/-- What is declared after a declaration, which is lost if there is no such frame. -/
theorem declare_declares_iff {other : BindingKind} {n : String} :
    (s.declare kind frame name).Declares id other n ↔ s.Declares id other n ∨
      frame < s.frames.length ∧ id = frame ∧ other = kind ∧ n = name := by
  by_cases hframe : frame < s.frames.length
  · simp [declare_declares hframe, hframe]
  · have hnone : s.frames[frame]? = none := by simpa using hframe
    have hsame : s.declare kind frame name = s := by
      cases kind <;> simp [declare, declareKnown, declareUnwrap, hnone]
    simp [hsame, hframe]

/-- A declaration counts once, however often it is made in its frame. -/
theorem Counted.declare (h : s.Counted) (kind : BindingKind) (frame : Nat) (name : String) :
    (s.declare kind frame name).Counted := by
  rcases declare_eq s kind frame name with heq | ⟨f, hf, hnew, hstack, hframes, hcounts⟩
  · rwa [heq]
  · have hlt : frame < s.frames.length := (List.getElem?_eq_some_iff.mp hf).1
    refine ⟨?_, ?_, fun other n => ?_⟩
    · rw [hstack]
      exact h.chained.mono (declare_grows s kind frame name).shape
    · intro g hg other
      rw [hframes] at hg
      rcases List.mem_or_eq_of_mem_set hg with hg | rfl
      · exact h.nodup g hg other
      · have hnodup := h.nodup f (List.mem_of_getElem? hf) other
        rw [Frame.names_add]
        split
        · rename_i hother
          subst hother
          refine List.nodup_append.mpr ⟨hnodup, by simp, ?_⟩
          intro a ha b hb hab
          rw [List.mem_singleton] at hb
          exact hnew (hb ▸ hab ▸ ha)
        · rwa [List.append_nil]
    · -- the count of the frames that declare `n` grows by one if `frame` is open, else not at all
      have hdeclares (id : Nat) : (s.declare kind frame name).declares other n id =
          (s.declares other n id || decide (id = frame ∧ other = kind ∧ n = name)) := by
        rw [Bool.eq_iff_iff, Bool.or_eq_true, declares_iff, declares_iff, declare_declares hlt,
          decide_eq_true_eq]
      have hfresh : s.declares kind name frame = false := by
        simpa [declares, hf] using hnew
      have hcount : s.stack.countP ((s.declare kind frame name).declares other n) =
          s.stack.countP (s.declares other n) +
            s.stack.countP fun id => decide (id = frame ∧ other = kind ∧ n = name) := by
        rw [← countP_or fun id _ => ?_]
        · exact List.countP_congr fun id _ => by rw [hdeclares]
        · rintro ⟨hid, hdeclared⟩
          obtain ⟨rfl, rfl, rfl⟩ := of_decide_eq_true hdeclared
          simp [hfresh] at hid
      rw [hcounts, hstack, hcount]
      by_cases hsame : other = kind ∧ n = name
      · obtain ⟨rfl, rfl⟩ := hsame
        -- the frame is open at most once
        have honce : s.stack.countP (fun id => decide (id = frame ∧ other = other ∧ n = n)) =
            if frame ∈ s.stack then 1 else 0 := by
          rw [← h.chained.nodup.count]
          exact List.countP_congr fun id _ => by simp
        rw [honce, ← h.counts]
        by_cases hopen : frame ∈ s.stack
        · simp [hopen, Tally.get_increment]
        · simp [hopen]
      · have hnone : s.stack.countP
            (fun id => decide (id = frame ∧ other = kind ∧ n = name)) = 0 := by
          simp [hsame]
        rw [hnone, Nat.add_zero, ← h.counts]
        split
        · rename_i hkind
          have hname : n ≠ name := fun heq => hsame ⟨hkind.1, heq⟩
          simp [Tally.get_increment, hname]
        · rfl

/-- The counts speak for unwrapping if some open frame unwraps the name and none declares it
otherwise. -/
theorem Counted.isActiveUnwrap_iff (h : s.Counted) : s.isActiveUnwrap name = true ↔
    (∃ id ∈ s.stack, s.Declares id .unwrap name) ∧ ∀ id ∈ s.stack, ¬ s.Declares id .known name := by
  have hunwrap : s.unwrapCount.get name = s.stack.countP (s.declares .unwrap name) :=
    h.counts .unwrap name
  have hknown : s.knownCount.get name = s.stack.countP (s.declares .known name) :=
    h.counts .known name
  rw [isActiveUnwrap, hunwrap, hknown, Bool.and_eq_true, decide_eq_true_eq, beq_iff_eq,
    List.countP_pos_iff, List.countP_eq_zero]
  simp only [declares_iff]

/-- A name is resolved by the first frame of the chain that declares it. -/
theorem resolveUpTo_chained {stack : List Nat} {fuel : Nat} (h : Chained s.shape stack)
    (hfuel : stack.length ≤ fuel) : s.resolveUpTo name fuel stack.head? =
      stack.findSome? fun id => (s.frames[id]?).bind (·.lookup name) := by
  induction h generalizing fuel with
  | nil => cases fuel <;> rfl
  | @cons id kind rest _ hid _ ih =>
    obtain ⟨fuel, rfl⟩ : ∃ n, fuel = n + 1 := ⟨fuel - 1, by simp at hfuel; omega⟩
    rw [shape_getElem?] at hid
    obtain ⟨f, hf, heq⟩ := Option.map_eq_some_iff.mp hid
    have hparent : f.parent = rest.head? := congrArg Prod.snd heq
    have hrest : s.resolveUpTo name fuel rest.head? =
        rest.findSome? fun id => (s.frames[id]?).bind (·.lookup name) := ih (by simpa using hfuel)
    simp only [List.head?_cons, resolveUpTo, hf, hparent, hrest, List.findSome?_cons,
      Option.bind_some]
    cases f.lookup name <;> rfl

theorem resolve_chained {rest : List Nat} (h : Chained s.shape (id :: rest)) :
    s.resolve id name =
      (id :: rest).findSome? fun id => (s.frames[id]?).bind (·.lookup name) := by
  have hlength := h.length_le
  have hid := h.lt_length (List.mem_cons_self ..)
  rw [length_shape] at hid
  refine resolveUpTo_chained h ?_
  simp only [List.length_cons]
  omega

theorem Chained.exists_of_resolve {rest : List Nat} (h : Chained s.shape (id :: rest))
    (hresolve : s.resolve id name = some kind) :
    ∃ outer ∈ id :: rest, s.Declares outer kind name := by
  rw [resolve_chained h] at hresolve
  obtain ⟨outer, houter, hlookup⟩ := List.exists_of_findSome?_eq_some hresolve
  obtain ⟨f, hf, hlookup⟩ := Option.bind_eq_some_iff.mp hlookup
  exact ⟨outer, houter, f, hf, Frame.mem_names_of_lookup hlookup⟩

/-- Where no frame around declares the name in the ordinary way, it is unwrapped as soon as some frame
around unwraps it. -/
theorem Chained.resolve_unwrap_iff {rest : List Nat} (h : Chained s.shape (id :: rest))
    (hknown : ∀ outer ∈ id :: rest, ¬ s.Declares outer .known name) :
    s.resolve id name = some .unwrap ↔ ∃ outer ∈ id :: rest, s.Declares outer .unwrap name := by
  refine ⟨h.exists_of_resolve, ?_⟩
  rintro ⟨outer, houter, f, hf, hname⟩
  cases hresolve : s.resolve id name with
  | none =>
    rw [resolve_chained h, List.findSome?_eq_none_iff] at hresolve
    have hlookup : f.lookup name = none := by simpa [hf] using hresolve outer houter
    exact absurd hname ((f.lookup_iff name).2.mp hlookup).1
  | some kind =>
    cases kind with
    | unwrap => rfl
    | known =>
      obtain ⟨inner, hinner, hdeclares⟩ := h.exists_of_resolve hresolve
      exact absurd hdeclares (hknown inner hinner)

/-- Frame `outer` is the frame itself or one of those around it. -/
inductive Within (s : Scopes) (outer : Nat) : Nat → Prop
  | self : Within s outer outer
  | step {id parent : Nat} (hparent : (s.shape[id]?).bind Prod.snd = some parent)
    (h : Within s outer parent) : Within s outer id

theorem Chained.within {outer : Nat} {rest : List Nat} (h : Chained s.shape (id :: rest))
    (houter : outer ∈ id :: rest) : s.Within outer id := by
  induction rest generalizing id with
  | nil =>
    obtain rfl := List.mem_singleton.mp houter
    exact .self
  | cons parent rest ih =>
    rcases List.mem_cons.mp houter with rfl | houter
    · exact .self
    · cases h with
      | cons hrest hid _ => exact .step (by simp [hid]) (ih hrest houter)

end Counts

end Scopes

end RefSugar

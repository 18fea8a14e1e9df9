import RefSugar.Proofs.Frames
import RefSugar.Proofs.Triggers

/-! Scopes as the outline of a tree tells them, and frames as a run keeps them. Main statement: a run
over a tree records every reference in a frame whose parents are the scopes around the reference, and
each of these frames declares what its scope declares. -/
namespace RefSugar.Walk

open Syntax

variable {S : Scope} {source : List Char}

/-- The pieces declare a name for the scope that they stand in. A hoisted declaration leaves the
scopes that are not the body of a function. -/
inductive Declares : List Piece → Decl → Prop
  | event {ps : List Piece} {ev : Event} {d : Decl} (hev : .event ev ∈ ps) (hd : d ∈ ev.decls) :
    Declares ps d
  | outer {ps : List Piece} {s : Setting} {v : Visit} {d : Decl} (hv : .part s v ∈ ps)
    (hd : Declares (v.outer s) d) : Declares ps d
  | inner {ps : List Piece} {s : Setting} {v : Visit} {S : Scope} {d : Decl} (hv : .part s v ∈ ps)
    (hS : v.scope? s = some S) (hd : Declares S.pieces d) (hplace : d.place = .hoisted)
    (hkind : S.kind.isHoistTarget = false) : Declares ps d

def Scope.Declares (S : Scope) (kind : BindingKind) (name : String) : Prop :=
  ∃ d, Walk.Declares S.pieces d ∧ d.kind = kind ∧ d.name = name ∧
    (d.place = .hoisted → S.kind.isHoistTarget = true)

/-- A reference among the pieces, and the scopes around it, innermost first. -/
inductive Occurs : List Piece → List Scope → Mention → Prop
  | event {ps : List Piece} {m : Mention} (hev : .event (.mention m) ∈ ps) : Occurs ps [] m
  | outer {ps : List Piece} {s : Setting} {v : Visit} {path : List Scope} {m : Mention}
    (hv : .part s v ∈ ps) (hm : Occurs (v.outer s) path m) : Occurs ps path m
  | inner {ps : List Piece} {s : Setting} {v : Visit} {S : Scope} {path : List Scope} {m : Mention}
    (hv : .part s v ∈ ps) (hS : v.scope? s = some S) (hm : Occurs S.pieces path m) :
    Occurs ps (path ++ [S]) m

section Relations

variable {ps qs : List Piece} {d : Decl} {path : List Scope} {m : Mention} {s : Setting} {v : Visit}

theorem declares_append : Declares (ps ++ qs) d ↔ Declares ps d ∨ Declares qs d := by
  constructor
  · intro h
    cases h with
    | event hev hd =>
      exact (List.mem_append.mp hev).imp (fun h => .event h hd) (fun h => .event h hd)
    | outer hv hd => exact (List.mem_append.mp hv).imp (fun h => .outer h hd) (fun h => .outer h hd)
    | inner hv hS hd hplace hkind =>
      exact (List.mem_append.mp hv).imp (fun h => .inner h hS hd hplace hkind)
        (fun h => .inner h hS hd hplace hkind)
  · rintro (h | h)
    all_goals
      cases h with
      | event hev hd => exact .event (by simp [hev]) hd
      | outer hv hd => exact .outer (List.mem_append.mpr (by simp [hv])) hd
      | inner hv hS hd hplace hkind =>
        exact .inner (List.mem_append.mpr (by simp [hv])) hS hd hplace hkind

theorem occurs_append : Occurs (ps ++ qs) path m ↔ Occurs ps path m ∨ Occurs qs path m := by
  constructor
  · intro h
    cases h with
    | event hev => exact (List.mem_append.mp hev).imp .event .event
    | outer hv hm => exact (List.mem_append.mp hv).imp (fun h => .outer h hm) (fun h => .outer h hm)
    | inner hv hS hm =>
      exact (List.mem_append.mp hv).imp (fun h => .inner h hS hm) (fun h => .inner h hS hm)
  · rintro (h | h)
    all_goals
      cases h with
      | event hev => exact .event (by simp [hev])
      | outer hv hm => exact .outer (List.mem_append.mpr (by simp [hv])) hm
      | inner hv hS hm => exact .inner (List.mem_append.mpr (by simp [hv])) hS hm

theorem declares_event {ev : Event} : Declares [.event ev] d ↔ d ∈ ev.decls := by
  constructor
  · intro h
    cases h with
    | event hev hd =>
      obtain rfl : _ = ev := by simpa using hev
      exact hd
    | outer hv _ | inner hv _ _ _ _ => simp at hv
  · exact .event (by simp)

theorem occurs_event {ev : Event} : Occurs [.event ev] path m ↔ path = [] ∧ ev = .mention m := by
  constructor
  · intro h
    cases h with
    | event hev => exact ⟨rfl, by simpa [eq_comm] using hev⟩
    | outer hv _ | inner hv _ _ => simp at hv
  · rintro ⟨rfl, rfl⟩
    exact .event (by simp)

/-- What a scope declares outside of itself. -/
def Scope.Hoists (S : Scope) (d : Decl) : Prop :=
  Walk.Declares S.pieces d ∧ d.place = .hoisted ∧ S.kind.isHoistTarget = false

/-- A visit declares what it declares outside of its scope, and what that hoists. -/
theorem declares_part : Declares [.part s v] d ↔
    Declares (v.outer s) d ∨ ∃ S, v.scope? s = some S ∧ S.Hoists d := by
  constructor
  · intro h
    cases h with
    | event hev _ => simp at hev
    | outer hv hd =>
      obtain ⟨rfl, rfl⟩ : _ = s ∧ _ = v := by simpa using hv
      exact .inl hd
    | inner hv hS hd hplace hkind =>
      obtain ⟨rfl, rfl⟩ : _ = s ∧ _ = v := by simpa using hv
      exact .inr ⟨_, hS, hd, hplace, hkind⟩
  · rintro (hd | ⟨S, hS, hd, hplace, hkind⟩)
    · exact .outer (by simp) hd
    · exact .inner (by simp) hS hd hplace hkind

/-- A reference of a visit stands outside of its scope, or inside. -/
theorem occurs_part : Occurs [.part s v] path m ↔
    Occurs (v.outer s) path m ∨
      ∃ S, v.scope? s = some S ∧ ∃ inside, path = inside ++ [S] ∧ Occurs S.pieces inside m := by
  constructor
  · intro h
    cases h with
    | event hev => simp at hev
    | outer hv hm =>
      obtain ⟨rfl, rfl⟩ : _ = s ∧ _ = v := by simpa using hv
      exact .inl hm
    | inner hv hS hm =>
      obtain ⟨rfl, rfl⟩ : _ = s ∧ _ = v := by simpa using hv
      exact .inr ⟨_, hS, _, rfl, hm⟩
  · rintro (hm | ⟨S, hS, inside, rfl, hm⟩)
    · exact .outer (by simp) hm
    · exact .inner (by simp) hS hm

end Relations

section Events

variable {s : Setting} {ev : Event}

/-- Scopes are opened and closed by the outline, and not by events of their own. -/
theorem outer_isFrame {v : Visit} (h : .event ev ∈ v.outer s) : ev.isFrame = false := by
  rcases outer_event h with ⟨m, rfl, _⟩ | ⟨place, name, rfl⟩ | h
  · rfl
  · rfl
  · cases triggers_of_mem h <;> rfl

/-- No scope of a tree is the root of a lone expression. -/
theorem scope_kind {v : Visit} (hS : v.scope? s = some S) : S.kind ≠ .expression := by
  cases v with
  | expr chain settled e =>
    simp only [Visit.scope?, exprScope] at hS
    split at hS <;> cases hS <;> simp
  | property p =>
    simp only [Visit.scope?, propertyScope] at hS
    split at hS <;> cases hS <;> simp
  | func f =>
    cases f
    cases hS
    simp [funcScope]
  | member m =>
    simp only [Visit.scope?, memberScope] at hS
    split at hS <;> cases hS <;> simp
  | stmt st =>
    simp only [Visit.scope?, stmtScope] at hS
    split at hS <;> cases hS <;> simp
  | pattern _ | target _ | field _ | targetField _ | cls _ | attr _ | declarator _ _ => cases hS

end Events

/-- The parents of frame `id` up to frame `base` are the scopes of the path: all of them are new, that
is numbered from `lo` on, and each declares what its scope declares. -/
def Linked (scopes : Scopes) (lo base : Nat) : Nat → List Scope → Prop
  | id, [] => id = base
  | id, S :: outer =>
    lo ≤ id ∧ id < scopes.frames.length ∧
      (∀ kind name, scopes.Declares id kind name ↔ S.Declares kind name) ∧
      ∃ parent < id, (scopes.shape[id]?).bind Prod.snd = some parent ∧
        Linked scopes lo base parent outer

def Refers (m : Mention) (ref : Reference) : Prop :=
  ref.name = m.id.name ∧ ref.span = m.id.span ∧ ref.chain = m.chain ∧ ref.isExempt = m.isExempt

section Links

variable {scopes scopes' : Scopes} {lo base id : Nat} {path : List Scope}

/-- Links last as long as the frames on them declare nothing new. -/
theorem Linked.mono (h : Linked scopes lo base id path)
    (hshape : scopes.shape <+: scopes'.shape)
    (hnames : ∀ id, lo ≤ id → id < scopes.frames.length → ∀ kind name,
      scopes'.Declares id kind name ↔ scopes.Declares id kind name) :
    Linked scopes' lo base id path := by
  induction path generalizing id with
  | nil => exact h
  | cons S outer ih =>
    obtain ⟨hlo, hid, hdeclares, parent, hlt, hparent, houter⟩ := h
    have hlength := hshape.length_le
    rw [Scopes.length_shape, Scopes.length_shape] at hlength
    refine ⟨hlo, Nat.lt_of_lt_of_le hid hlength, fun kind name => ?_, parent, hlt, ?_, ih houter⟩
    · exact (hnames id hlo hid kind name).trans (hdeclares kind name)
    · rwa [Scopes.shape_eq_of_prefix hshape hid]

theorem Linked.of_le {lo' : Nat} (h : Linked scopes lo base id path) (hle : lo' ≤ lo) :
    Linked scopes lo' base id path := by
  induction path generalizing id with
  | nil => exact h
  | cons S outer ih =>
    obtain ⟨hlo, hid, hdeclares, parent, hlt, hparent, houter⟩ := h
    exact ⟨Nat.le_trans hle hlo, hid, hdeclares, parent, hlt, hparent, ih houter⟩

/-- The links go on through one more scope. -/
theorem Linked.snoc {outer : Nat} (h : Linked scopes lo base id path)
    (hlast : Linked scopes lo outer base [S]) : Linked scopes lo outer id (path ++ [S]) := by
  induction path generalizing id with
  | nil =>
    obtain rfl : id = base := h
    exact hlast
  | cons T rest ih =>
    obtain ⟨hlo, hid, hdeclares, parent, hlt, hparent, hrest⟩ := h
    exact ⟨hlo, hid, hdeclares, parent, hlt, hparent, ih hrest⟩

end Links

/-- What a run does from `r` to `r'`: it declares what `D` tells in the frames that were there, and
records the references of `O`, each linked to the frame that was the innermost. -/
structure Walked (D : Decl → Prop) (O : List Scope → Mention → Prop) (r r' : Run) : Prop where
  grows : r.scopes.Grows r'.scopes
  names : ∀ id < r.scopes.frames.length, ∀ kind name, r'.scopes.Declares id kind name ↔
    r.scopes.Declares id kind name ∨
      ∃ d, D d ∧ d.kind = kind ∧ d.name = name ∧ d.place.frame r.scopes = id
  records : ∃ new, r'.references = r.references ++ new ∧
    (∀ ref ∈ new, ∃ path m, O path m ∧ Refers m ref ∧
      Linked r'.scopes r.scopes.frames.length r.scopes.current ref.frame path) ∧
    ∀ path m, O path m → ∃ ref ∈ new, Refers m ref ∧
      Linked r'.scopes r.scopes.frames.length r.scopes.current ref.frame path

section Runs

variable {D D' : Decl → Prop} {O O' : List Scope → Mention → Prop} {r r' r'' : Run}

theorem Walked.congr (h : Walked D O r r') (hD : ∀ d, D' d ↔ D d)
    (hO : ∀ path m, O' path m ↔ O path m) : Walked D' O' r r' := by
  obtain rfl : D' = D := funext fun d => propext (hD d)
  obtain rfl : O' = O := funext fun path => funext fun m => propext (hO path m)
  exact h

theorem Walked.nil (r : Run) : Walked (fun _ => False) (fun _ _ => False) r r :=
  ⟨.refl _, by simp, [], by simp, by simp, by simp⟩

/-- What is linked stays so while other pieces are walked. -/
theorem Walked.keeps (h : Walked D O r r') (hopen : r.scopes.IsOpen) {lo base id : Nat}
    {path : List Scope} (hstack : ∀ id ∈ r.scopes.stack, id < lo)
    (hlinked : Linked r.scopes lo base id path) : Linked r'.scopes lo base id path := by
  refine hlinked.mono h.grows.shape fun id hlo hid kind name => ?_
  rw [h.names id hid]
  refine or_iff_left ?_
  -- A declaration goes to an open frame, and the frames from `lo` on are closed.
  rintro ⟨d, _, _, _, hframe⟩
  have := hstack _ (hopen.frame_mem d.place)
  omega

/-- Two runs one behind the other declare and record what each of them does. -/
theorem Walked.append (h : Walked D O r r') (h' : Walked D' O' r' r'') (hopen : r.scopes.IsOpen) :
    Walked (fun d => D d ∨ D' d) (fun path m => O path m ∨ O' path m) r r'' := by
  have hcurrent : r'.scopes.current = r.scopes.current := h.grows.frame_eq hopen .current
  have hlength := h.grows.length_le
  obtain ⟨new, hnew, hrefs, hmentions⟩ := h.records
  obtain ⟨new', hnew', hrefs', hmentions'⟩ := h'.records
  have hfirst {ref : Reference} {path : List Scope}
      (hlinked : Linked r'.scopes r.scopes.frames.length r.scopes.current ref.frame path) :
      Linked r''.scopes r.scopes.frames.length r.scopes.current ref.frame path :=
    h'.keeps (h.grows.isOpen hopen) (h.grows.stack ▸ hopen.held) hlinked
  have hsecond {ref : Reference} {path : List Scope}
      (hlinked : Linked r''.scopes r'.scopes.frames.length r'.scopes.current ref.frame path) :
      Linked r''.scopes r.scopes.frames.length r.scopes.current ref.frame path :=
    hcurrent ▸ hlinked.of_le hlength
  refine ⟨h.grows.trans h'.grows, fun id hid kind name => ?_, new ++ new', ?_, ?_, ?_⟩
  · rw [h'.names id (Nat.lt_of_lt_of_le hid hlength), h.names id hid]
    simp only [h.grows.frame_eq hopen, or_assoc]
    refine or_congr_right ?_
    constructor
    · rintro (⟨d, hd, hrest⟩ | ⟨d, hd, hrest⟩)
      · exact ⟨d, .inl hd, hrest⟩
      · exact ⟨d, .inr hd, hrest⟩
    · rintro ⟨d, hd | hd, hrest⟩
      · exact .inl ⟨d, hd, hrest⟩
      · exact .inr ⟨d, hd, hrest⟩
  · rw [hnew', hnew, List.append_assoc]
  · intro ref href
    rcases List.mem_append.mp href with href | href
    · obtain ⟨path, m, hO, hrefers, hlinked⟩ := hrefs ref href
      exact ⟨path, m, .inl hO, hrefers, hfirst hlinked⟩
    · obtain ⟨path, m, hO, hrefers, hlinked⟩ := hrefs' ref href
      exact ⟨path, m, .inr hO, hrefers, hsecond hlinked⟩
  · rintro path m (hO | hO)
    · obtain ⟨ref, href, hrefers, hlinked⟩ := hmentions path m hO
      exact ⟨ref, List.mem_append_left _ href, hrefers, hfirst hlinked⟩
    · obtain ⟨ref, href, hrefers, hlinked⟩ := hmentions' path m hO
      exact ⟨ref, List.mem_append_right _ href, hrefers, hsecond hlinked⟩

theorem foldl_declare (ds : List Decl) (target : Decl → Nat) {s : Scopes}
    (h : ∀ d ∈ ds, target d < s.frames.length) :
    s.Grows (ds.foldl (fun s d => s.declare d.kind (target d) d.name) s) ∧
      ∀ id kind name,
        (ds.foldl (fun s d => s.declare d.kind (target d) d.name) s).Declares id kind name ↔
          s.Declares id kind name ∨ ∃ d ∈ ds, d.kind = kind ∧ d.name = name ∧ target d = id := by
  induction ds generalizing s with
  | nil => exact ⟨.refl s, by simp⟩
  | cons d ds ih =>
    obtain ⟨hd, hds⟩ := List.forall_mem_cons.mp h
    have hgrows := s.declare_grows d.kind (target d) d.name
    obtain ⟨hgrows', hnames⟩ := @ih (s.declare d.kind (target d) d.name)
      fun e he => Nat.lt_of_lt_of_le (hds e he) hgrows.length_le
    refine ⟨hgrows.trans hgrows', fun id kind name => ?_⟩
    rw [List.foldl_cons, hnames, Scopes.declare_declares hd]
    rw [or_assoc]
    refine or_congr_right ?_
    constructor
    · rintro (⟨rfl, rfl, rfl⟩ | ⟨e, he, hrest⟩)
      · exact ⟨d, by simp, rfl, rfl, rfl⟩
      · exact ⟨e, by simp [he], hrest⟩
    · rintro ⟨e, he, hkind, hname, htarget⟩
      rcases List.mem_cons.mp he with rfl | he
      · exact .inl ⟨htarget.symm, hkind.symm, hname.symm⟩
      · exact .inr ⟨e, he, hkind, hname, htarget⟩

theorem step_references_of_ne (r : Run) {ev : Event}
    (h : ∀ m, ev ≠ .mention m) : (r.step source ev).references = r.references := by
  cases ev with
  | mention m => exact absurd rfl (h m)
  | unpack place plan stop =>
    rw [Run.step, Run.unpack_eq]
  | _ => rfl

/-- An event that opens and closes nothing. -/
theorem walked_event {ev : Event} (hframe : ev.isFrame = false) (hopen : r.scopes.IsOpen) :
    Walked (· ∈ ev.decls) (fun path m => path = [] ∧ ev = .mention m) r (r.step source ev) := by
  obtain ⟨hgrows, hnames⟩ := foldl_declare ev.decls (fun d => d.place.frame r.scopes)
    fun d _ => hopen.frame_lt d.place
  rw [← @Run.step_scopes source r ev hframe] at hgrows
  refine ⟨hgrows, fun id _ kind name => ?_, ?_⟩
  · rw [Run.step_scopes r hframe, hnames]
  · by_cases hmention : ∃ m, ev = .mention m
    · obtain ⟨m, rfl⟩ := hmention
      refine ⟨_, rfl, ?_, ?_⟩
      · intro ref href
        obtain rfl := List.mem_singleton.mp href
        exact ⟨[], m, ⟨rfl, rfl⟩, ⟨rfl, rfl, rfl, rfl⟩, rfl⟩
      · rintro path m' ⟨rfl, heq⟩
        obtain rfl := Event.mention.inj heq
        exact ⟨_, List.mem_singleton_self _, ⟨rfl, rfl, rfl, rfl⟩, rfl⟩
    · refine ⟨[], ?_, by simp, ?_⟩
      · rw [step_references_of_ne r fun m hm => hmention ⟨m, hm⟩, List.append_nil]
      · rintro path m ⟨_, heq⟩
        exact absurd ⟨m, heq⟩ hmention

/-- Inside of a new scope a declaration goes to the new frame, unless it is hoisted out of it. -/
theorem enter_frame_iff (hopen : r.scopes.IsOpen) (d : Decl) :
    (d.place.frame (r.scopes.enter S.kind) = r.scopes.frames.length ↔
        (d.place = .hoisted → S.kind.isHoistTarget = true)) ∧
      ∀ id < r.scopes.frames.length, (d.place.frame (r.scopes.enter S.kind) = id ↔
        d.place = .hoisted ∧ S.kind.isHoistTarget = false ∧ d.place.frame r.scopes = id) := by
  obtain ⟨place, kind, name⟩ := d
  have hlt := hopen.frame_lt .hoisted
  cases place with
  | current =>
    rw [Scopes.enter_frame_current]
    exact ⟨by simp, fun id hid => by simp; omega⟩
  | hoisted =>
    rw [Scopes.enter_frame_hoisted hopen]
    cases S.kind.isHoistTarget with
    | true => exact ⟨by simp, fun id hid => by simp; omega⟩
    | false => exact ⟨by simp; omega, fun id hid => by simp⟩

/-- Behind a scope, its frame declares what the scope declares and stands in the frame that was the
innermost before. -/
theorem linked_scope {O : List Scope → Mention → Prop} {inside : Run} (hkind : S.kind ≠ .expression)
    (hopen : r.scopes.IsOpen)
    (h : Walked (Declares S.pieces) O { r with scopes := r.scopes.enter S.kind } inside) :
    inside.scopes.leave.stack = r.scopes.stack ∧
      inside.scopes.leave.frames = inside.scopes.frames ∧
      Linked inside.scopes.leave r.scopes.frames.length r.scopes.current r.scopes.frames.length
        [S] := by
  have hnew : (r.scopes.enter S.kind).frames.length = r.scopes.frames.length + 1 := by
    simp [Scopes.enter]
  have hshape : inside.scopes.shape[r.scopes.frames.length]? = some (S.kind, r.scopes.stack.head?) := by
    rw [h.grows.shape_eq (by rw [hnew]; omega), Scopes.enter_shape,
      List.getElem?_append_right (by simp [Scopes.length_shape]), Scopes.length_shape]
    simp
  obtain ⟨hleft, hframes⟩ := Scopes.leave_eq h.grows.stack hshape hkind
  have hfirst : ∀ kind name, ¬ r.scopes.Declares r.scopes.frames.length kind name := by
    rintro kind name ⟨f, hf, _⟩
    simp at hf
  have hcurrent : r.scopes.stack.head? = some r.scopes.current := by
    obtain ⟨id, hid, _⟩ := hopen.target
    cases hs : r.scopes.stack with
    | nil => simp [hs] at hid
    | cons id rest => simp [Scopes.current, hs]
  refine ⟨hleft, hframes, Nat.le_refl _, ?_, fun kind name => ?_, r.scopes.current,
    hopen.frame_lt .current, ?_, rfl⟩
  · have := h.grows.length_le
    rw [hframes]
    dsimp only at this
    omega
  · rw [Scopes.Declares, hframes, ← Scopes.Declares, h.names _ (by dsimp only; omega),
      Scopes.enter_declares]
    simp only [hfirst, false_or, (enter_frame_iff hopen _).1]
    rfl
  · rw [Scopes.shape, hframes, ← Scopes.shape, hshape, hcurrent]
    rfl

/-- A scope is closed where it was opened; outside of it only what is hoisted remains. -/
theorem walked_scope (hkind : S.kind ≠ .expression) (hopen : r.scopes.IsOpen)
    (h : Walked (Declares S.pieces) (Occurs S.pieces) { r with scopes := r.scopes.enter S.kind }
      (Run.steps source { r with scopes := r.scopes.enter S.kind } (expand S.pieces))) :
    Walked S.Hoists (fun path m => ∃ inside, path = inside ++ [S] ∧ Occurs S.pieces inside m) r
      (r.steps source S.trace) := by
  generalize hinside : Run.steps source { r with scopes := r.scopes.enter S.kind }
    (expand S.pieces) = inside at h
  have hrun : r.steps source S.trace = { inside with scopes := inside.scopes.leave } := by
    rw [← hinside]
    simp [Scope.trace, framed, Run.steps, Run.step]
  have hnew : (r.scopes.enter S.kind).frames.length = r.scopes.frames.length + 1 := by
    simp [Scopes.enter]
  obtain ⟨hleft, hframes, hlast⟩ := linked_scope hkind hopen h
  have hleave : inside.scopes.leave.shape = inside.scopes.shape := by
    rw [Scopes.shape, Scopes.shape, hframes]
  have hdeclares (id : Nat) (kind : BindingKind) (name : String) :
      inside.scopes.leave.Declares id kind name ↔ inside.scopes.Declares id kind name := by
    rw [Scopes.Declares, Scopes.Declares, hframes]
  have hlinked {ref : Reference} {path : List Scope}
      (hpath : Linked inside.scopes (r.scopes.enter S.kind).frames.length
        (r.scopes.enter S.kind).current ref.frame path) :
      Linked inside.scopes.leave r.scopes.frames.length r.scopes.current ref.frame (path ++ [S]) := by
    have hbase : (r.scopes.enter S.kind).current = r.scopes.frames.length :=
      Scopes.enter_frame_current r.scopes S.kind
    rw [hbase] at hpath
    exact ((hpath.of_le (by omega)).mono (hleave ▸ List.prefix_refl _)
      fun id _ _ => hdeclares id).snoc hlast
  rw [hrun]
  refine ⟨⟨hleft, ?_⟩, fun id hid kind name => ?_, ?_⟩
  · rw [hleave]
    refine List.IsPrefix.trans ?_ h.grows.shape
    rw [Scopes.enter_shape]
    exact List.prefix_append _ _
  · rw [hdeclares, h.names id (by dsimp only; omega), Scopes.enter_declares]
    simp only [(enter_frame_iff hopen _).2 id hid]
    refine or_congr_right ?_
    constructor
    · rintro ⟨d, hd, hk, hn, hplace, htarget, hframe⟩
      exact ⟨d, ⟨hd, hplace, htarget⟩, hk, hn, hframe⟩
    · rintro ⟨d, ⟨hd, hplace, htarget⟩, hk, hn, hframe⟩
      exact ⟨d, hd, hk, hn, hplace, htarget, hframe⟩
  · obtain ⟨new, hrefs, hall, hmentions⟩ := h.records
    refine ⟨new, hrefs, ?_, ?_⟩
    · intro ref href
      obtain ⟨path, m, hO, hrefers, hpath⟩ := hall ref href
      exact ⟨path ++ [S], m, ⟨path, rfl, hO⟩, hrefers, hlinked hpath⟩
    · rintro _ m ⟨path, rfl, hO⟩
      obtain ⟨ref, href, hrefers, hpath⟩ := hmentions path m hO
      exact ⟨ref, href, hrefers, hlinked hpath⟩

/-- Pieces one after another, if each of their parts is walked as it should. -/
theorem walked_pieces {ps : List Piece} (hframe : ∀ ev, .event ev ∈ ps → ev.isFrame = false)
    (hparts : ∀ s v, .part s v ∈ ps → ∀ r : Run, r.scopes.IsOpen →
      Walked (Declares [.part s v]) (Occurs [.part s v]) r (r.steps source (v.trace s)))
    (hopen : r.scopes.IsOpen) :
    Walked (Declares ps) (Occurs ps) r (r.steps source (expand ps)) := by
  induction ps generalizing r with
  | nil =>
    refine (Walked.nil r).congr (fun d => iff_false_intro ?_) fun path m => iff_false_intro ?_
    · intro h
      cases h with
      | event h _ | outer h _ | inner h _ _ _ _ => cases h
    · intro h
      cases h with
      | event h | outer h _ | inner h _ _ => cases h
  | cons p ps ih =>
    have hfirst : Walked (Declares [p]) (Occurs [p]) r (r.steps source p.trace) := by
      cases p with
      | event ev =>
        exact (walked_event (hframe ev (by simp)) hopen).congr (fun d => declares_event)
          fun path m => occurs_event
      | part s v => exact hparts s v (by simp) r hopen
    have hrest := ih (fun ev h => hframe ev (by simp [h])) (fun s v h => hparts s v (by simp [h]))
      (hfirst.grows.isOpen hopen)
    rw [expand_cons, Run.steps, List.foldl_append]
    exact (hfirst.append hrest hopen).congr (fun d => @declares_append [p] ps d)
      fun path m => @occurs_append [p] ps path m

/-- A visit is walked as its outline tells. -/
theorem walked_visit (s : Setting) (v : Visit) :
    ∀ r : Run, r.scopes.IsOpen →
      Walked (Declares [.part s v]) (Occurs [.part s v]) r (r.steps source (v.trace s)) := by
  induction s, v using Visit.induct with
  | step s v ih =>
    intro r hopen
    have houter : Walked (Declares (v.outer s)) (Occurs (v.outer s)) r
        (r.steps source (expand (v.outer s))) :=
      walked_pieces (fun ev h => outer_isFrame h)
        (fun s' v' h => ih s' v' (List.mem_append_left _ h)) hopen
    rw [Visit.trace_eq]
    cases hS : v.scope? s with
    | none =>
      rw [Option.toList_none, List.flatMap_nil, List.append_nil]
      exact houter.congr (fun d => by simp [declares_part, hS])
        fun path m => by simp [occurs_part, hS]
    | some S =>
      have hinside (r : Run) (hopen : r.scopes.IsOpen) :
          Walked (Declares S.pieces) (Occurs S.pieces) r (r.steps source (expand S.pieces)) :=
        walked_pieces (fun ev h => by obtain ⟨name, rfl⟩ := Visit.scope_event hS h; rfl)
          (fun s' v' h => ih s' v' (List.mem_append_right _ (by simpa [hS] using h))) hopen
      have hopen' := houter.grows.isOpen hopen
      have hscope := walked_scope (scope_kind hS) hopen'
        (hinside _ (Scopes.enter_isOpen hopen' S.kind))
      rw [Option.toList_some, List.flatMap_singleton, Run.steps, List.foldl_append]
      exact (houter.append hscope hopen).congr (fun d => by simp [declares_part, hS])
        fun path m => by simp [occurs_part, hS]

end Runs

end RefSugar.Walk

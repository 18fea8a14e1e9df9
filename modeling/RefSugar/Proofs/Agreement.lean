import RefSugar.Proofs.Counting
import RefSugar.Proofs.Resolution

/-! The two ways of resolving names agree. Lexical resolution looks at the frames when all has been
declared; counting looks at the counts when a reference is met. If no name is declared in both ways
and every name to unwrap is declared before the references to it, then the frames around a reference
say at the end what the counts said. -/
namespace RefSugar

namespace Scopes

/-- No frame declares in the ordinary way what some frame unwraps. -/
def Unmixed (s : Scopes) : Prop :=
  ∀ name id id', s.Declares id .unwrap name → ¬ s.Declares id' .known name

variable {s : Scopes} {name : String}

/-- Where names are not declared in both ways, a name is unwrapped as soon as some frame around
unwraps it. -/
theorem Unmixed.resolve_iff (h : s.Unmixed) {id : Nat} {rest : List Nat}
    (hchained : Chained s.shape (id :: rest)) :
    s.resolve id name = some .unwrap ↔ ∃ outer ∈ id :: rest, s.Declares outer .unwrap name := by
  refine ⟨hchained.exists_of_resolve, ?_⟩
  rintro ⟨outer, houter, hdeclares⟩
  have hknown : ∀ inner ∈ id :: rest, ¬ s.Declares inner .known name := fun inner _ =>
    h name outer inner hdeclares
  exact (hchained.resolve_unwrap_iff hknown).mpr ⟨outer, houter, hdeclares⟩

end Scopes

namespace Walk

open Syntax

/-- What is opened is closed, the last first. -/
inductive Bracketed : List Event → Prop
  | nil : Bracketed []
  | event {ev : Event} (h : ev.isFrame = false) : Bracketed [ev]
  | append {E E' : List Event} (h : Bracketed E) (h' : Bracketed E') : Bracketed (E ++ E')
  | framed {kind : FrameKind} {E : List Event} (hkind : kind ≠ .expression) (h : Bracketed E) :
    Bracketed (framed kind E)

theorem bracketed_expand {ps : List Piece} (hevents : ∀ ev, .event ev ∈ ps → ev.isFrame = false)
    (hparts : ∀ s v, .part s v ∈ ps → Bracketed (v.trace s)) : Bracketed (expand ps) := by
  induction ps with
  | nil => exact .nil
  | cons p ps ih =>
    rw [expand_cons]
    refine .append ?_ (ih (fun ev h => hevents ev (by simp [h])) fun s v h => hparts s v (by simp [h]))
    cases p with
    | event ev => exact .event (hevents ev (by simp))
    | part s v => exact hparts s v (by simp)

/-- The events of a visit open and close frames like brackets. -/
theorem bracketed_trace (s : Setting) (v : Visit) : Bracketed (v.trace s) := by
  induction s, v using Visit.induct with
  | step s v ih =>
    rw [Visit.trace_eq]
    refine .append (bracketed_expand (fun ev => outer_isFrame) fun s' v' h => ih s' v' ?_) ?_
    · exact List.mem_append_left _ h
    · cases hS : v.scope? s with
      | none => exact .nil
      | some S =>
        simp only [Option.toList_some, List.flatMap_cons, List.flatMap_nil, List.append_nil]
        refine .framed (scope_kind hS) (bracketed_expand (fun ev h => ?_) fun s' v' h => ih s' v' ?_)
        · obtain ⟨name, rfl⟩ := Visit.scope_event hS h
          rfl
        · exact List.mem_append_right _ (by simpa [hS] using h)

theorem bracketed_traceStmts (s : Setting) (stmts : List Stmt) : Bracketed (traceStmts s stmts) := by
  rw [← expand_stmtPieces]
  exact bracketed_expand (fun ev h => by simp at h) fun s' v _ => bracketed_trace s' v

section Runs

variable {source : List Char} {r : Run}

theorem foldl_declare_counted (ds : List Decl) (target : Decl → Nat) {s : Scopes} (h : s.Counted) :
    (ds.foldl (fun s d => s.declare d.kind (target d) d.name) s).Counted := by
  induction ds generalizing s with
  | nil => exact h
  | cons d ds ih => exact ih (h.declare d.kind (target d) d.name)

theorem foldl_declare_grows (ds : List Decl) (target : Decl → Nat) (s : Scopes) :
    s.Grows (ds.foldl (fun s d => s.declare d.kind (target d) d.name) s) := by
  induction ds generalizing s with
  | nil => exact .refl s
  | cons d ds ih => exact (s.declare_grows d.kind (target d) d.name).trans (ih _)

/-- Declarations add what they declare, in frames that exist. -/
theorem foldl_declare_declares (ds : List Decl) (target : Decl → Nat) {s : Scopes} {id : Nat}
    {kind : BindingKind} {name : String} :
    (ds.foldl (fun s d => s.declare d.kind (target d) d.name) s).Declares id kind name ↔
      s.Declares id kind name ∨ ∃ d ∈ ds, target d < s.frames.length ∧
        d.kind = kind ∧ d.name = name ∧ target d = id := by
  induction ds generalizing s with
  | nil => simp
  | cons d ds ih =>
    have hlength : (s.declare d.kind (target d) d.name).frames.length = s.frames.length := by
      rcases Scopes.declare_eq s d.kind (target d) d.name with heq | ⟨f, _, _, _, hframes, _⟩
      · rw [heq]
      · rw [hframes, List.length_set]
    rw [List.foldl_cons, ih, Scopes.declare_declares_iff, hlength, or_assoc]
    refine or_congr_right ?_
    constructor
    · rintro (⟨hlt, rfl, rfl, rfl⟩ | ⟨e, he, hrest⟩)
      · exact ⟨d, by simp, hlt, rfl, rfl, rfl⟩
      · exact ⟨e, by simp [he], hrest⟩
    · rintro ⟨e, he, hlt, hkind, hname, htarget⟩
      rcases List.mem_cons.mp he with rfl | he
      · exact .inl ⟨hlt, htarget.symm, hkind.symm, hname.symm⟩
      · exact .inr ⟨e, he, hlt, hkind, hname, htarget⟩

theorem step_counted (h : r.scopes.Counted) (ev : Event) : (r.step source ev).scopes.Counted := by
  cases hframe : ev.isFrame with
  | false =>
    rw [Run.step_scopes r hframe]
    exact foldl_declare_counted ev.decls _ h
  | true =>
    cases ev with
    | enter kind => exact h.enter kind
    | leave => exact h.leave
    | _ => simp [Event.isFrame] at hframe

/-- A later run has the frames, the names and the references of the earlier one. -/
structure Extends (r r' : Run) : Prop where
  shape : r.scopes.shape <+: r'.scopes.shape
  names : ∀ id kind name, r.scopes.Declares id kind name → r'.scopes.Declares id kind name
  references : r.references <+: r'.references

theorem Extends.refl (r : Run) : Extends r r :=
  ⟨List.prefix_refl _, fun _ _ _ => id, List.prefix_refl _⟩

theorem Extends.trans {r' r'' : Run} (h : Extends r r') (h' : Extends r' r'') : Extends r r'' :=
  ⟨h.shape.trans h'.shape, fun id kind name hd => h'.names id kind name (h.names id kind name hd),
    h.references.trans h'.references⟩

/-- What a step declares, it declares in the frames that its places stand for. -/
theorem step_declares (ev : Event) {id : Nat} {kind : BindingKind} {name : String} :
    (r.step source ev).scopes.Declares id kind name ↔ r.scopes.Declares id kind name ∨
      ∃ d ∈ ev.decls, d.place.frame r.scopes < r.scopes.frames.length ∧
        d.kind = kind ∧ d.name = name ∧ d.place.frame r.scopes = id := by
  cases hframe : ev.isFrame with
  | false => rw [Run.step_scopes r hframe, foldl_declare_declares]
  | true =>
    cases ev with
    | enter kind => simp [Run.step, Scopes.enter_declares, Event.decls]
    | leave => simp [Run.step, Scopes.Declares, Scopes.leave_frames, Event.decls]
    | _ => simp [Event.isFrame] at hframe

/-- A step only adds frames. -/
theorem step_shape (r : Run) (ev : Event) : r.scopes.shape <+: (r.step source ev).scopes.shape := by
  cases hframe : ev.isFrame with
  | false =>
    rw [Run.step_scopes r hframe]
    exact (foldl_declare_grows ev.decls _ r.scopes).shape
  | true =>
    cases ev with
    | enter kind =>
      rw [Run.step, Scopes.enter_shape]
      exact List.prefix_append _ _
    | leave =>
      have hsame : r.scopes.leave.shape = r.scopes.shape := by
        rw [Scopes.shape, Scopes.shape, Scopes.leave_frames]
      simp [Run.step, hsame]
    | _ => simp [Event.isFrame] at hframe

theorem step_extends (r : Run) (ev : Event) : Extends r (r.step source ev) := by
  refine ⟨step_shape r ev, fun id kind name h => (step_declares ev).mpr (.inl h), ?_⟩
  by_cases hmention : ∃ m, ev = .mention m
  · obtain ⟨m, rfl⟩ := hmention
    exact List.prefix_append _ _
  · simp [step_references_of_ne r fun m hm => hmention ⟨m, hm⟩]

theorem steps_cons (r : Run) (ev : Event) (events : List Event) :
    r.steps source (ev :: events) = (r.step source ev).steps source events :=
  rfl

theorem steps_append (r : Run) (E E' : List Event) :
    r.steps source (E ++ E') = (r.steps source E).steps source E' :=
  List.foldl_append

theorem steps_counted (h : r.scopes.Counted) (events : List Event) :
    (r.steps source events).scopes.Counted := by
  induction events generalizing r with
  | nil => exact h
  | cons ev events ih => exact ih (step_counted h ev)

theorem steps_extends (r : Run) (events : List Event) : Extends r (r.steps source events) := by
  induction events generalizing r with
  | nil => exact .refl r
  | cons ev events ih => exact (step_extends r ev).trans (ih _)

/-- Inside of a bracketed stretch the frames that were open before stay open, and behind it the same
are open again. -/
theorem Bracketed.stack {E : List Event} (h : Bracketed E) (r : Run) :
    (r.steps source E).scopes.stack = r.scopes.stack ∧
      ∀ before after, E = before ++ after →
        r.scopes.stack <:+ (r.steps source before).scopes.stack := by
  induction h generalizing r with
  | nil =>
    refine ⟨rfl, fun before after heq => ?_⟩
    obtain ⟨rfl, rfl⟩ := List.append_eq_nil_iff.mp heq.symm
    exact List.suffix_refl _
  | @event ev hframe =>
    have hstack : (r.step source ev).scopes.stack = r.scopes.stack := by
      rw [Run.step_scopes r hframe]
      exact (foldl_declare_grows ev.decls _ r.scopes).stack
    refine ⟨hstack, fun before after heq => ?_⟩
    rcases List.singleton_eq_append_iff.mp heq with ⟨rfl, _⟩ | ⟨rfl, _⟩
    · exact List.suffix_refl _
    · exact hstack ▸ List.suffix_refl _
  | @append E E' _ _ ih ih' =>
    obtain ⟨hstack, hinside⟩ := ih r
    obtain ⟨hstack', hinside'⟩ := ih' (r.steps source E)
    rw [steps_append]
    refine ⟨hstack'.trans hstack, fun before after heq => ?_⟩
    rcases List.append_eq_append_iff.mp heq with ⟨middle, rfl, hE'⟩ | ⟨middle, hE, _⟩
    · rw [steps_append, ← hstack]
      exact hinside' middle after hE'
    · exact hinside before middle hE
  | @framed kind E hkind _ ih =>
    obtain ⟨hstack, hinside⟩ := ih (r.step source (.enter kind))
    have hopened : (r.step source (.enter kind)).scopes.stack =
        r.scopes.frames.length :: r.scopes.stack := rfl
    have hclosed : (r.steps source (Walk.framed kind E)).scopes.stack = r.scopes.stack := by
      have hshape : ((r.step source (.enter kind)).steps source E).scopes.shape[
          r.scopes.frames.length]? = some (kind, r.scopes.stack.head?) := by
        have hnew : (r.step source (.enter kind)).scopes.shape[r.scopes.frames.length]? =
            some (kind, r.scopes.stack.head?) := by
          rw [Run.step, Scopes.enter_shape, ← Scopes.length_shape, List.getElem?_append_right (by simp),
            Nat.sub_self]
          rfl
        rw [Scopes.shape_eq_of_prefix (steps_extends _ E).shape (by simp [Run.step, Scopes.enter]), hnew]
      rw [Walk.framed, List.cons_append, steps_cons, steps_append]
      exact (Scopes.leave_eq (hstack.trans hopened) hshape hkind).1
    refine ⟨hclosed, fun before after heq => ?_⟩
    -- a cut stands in front of the frame, in it, or behind it
    cases before with
    | nil => exact List.suffix_refl _
    | cons ev before =>
      obtain ⟨rfl, hrest⟩ : .enter kind = ev ∧ E ++ [.leave] = before ++ after := by
        simpa [Walk.framed] using heq
      rcases List.append_eq_append_iff.mp hrest with ⟨middle, rfl, hlast⟩ | ⟨middle, hE, _⟩
      · rcases List.singleton_eq_append_iff.mp hlast with ⟨rfl, _⟩ | ⟨rfl, _⟩
        · rw [List.append_nil, steps_cons, hstack, hopened]
          exact List.suffix_cons _ _
        · exact hclosed ▸ List.suffix_refl _
      · refine List.IsSuffix.trans ?_ (hinside before middle hE)
        rw [hopened]
        exact List.suffix_cons _ _

def recorded (r : Run) (m : Mention) : Reference :=
  { name := m.id.name, span := m.id.span, frame := r.scopes.current, isWrite := m.isWrite
    isShorthand := m.isShorthand, chain := m.chain, isExempt := m.isExempt
    wasActive := r.scopes.isActiveUnwrap m.id.name }

/-- Every new reference was recorded at some event. -/
theorem exists_of_mem_references {events : List Event} {ref : Reference}
    (h : ref ∈ (r.steps source events).references) : ref ∈ r.references ∨
      ∃ before m after, events = before ++ .mention m :: after ∧
        ref = recorded (r.steps source before) m := by
  induction events generalizing r with
  | nil => exact .inl h
  | cons ev events ih =>
    rcases ih h with hold | ⟨before, m, after, rfl, hrecorded⟩
    · by_cases hmention : ∃ m, ev = .mention m
      · obtain ⟨m, rfl⟩ := hmention
        rcases List.mem_append.mp hold with hold | hnew
        · exact .inl hold
        · exact .inr ⟨[], m, events, rfl, List.mem_singleton.mp hnew⟩
      · rw [step_references_of_ne r fun m hm => hmention ⟨m, hm⟩] at hold
        exact .inl hold
    · exact .inr ⟨ev :: before, m, after, rfl, hrecorded⟩

/-- Every new name was declared at some event. -/
theorem exists_of_declares {events : List Event} {id : Nat} {kind : BindingKind} {name : String}
    (h : (r.steps source events).scopes.Declares id kind name) : r.scopes.Declares id kind name ∨
      ∃ before ev after, events = before ++ ev :: after ∧ ∃ d ∈ ev.decls, d.kind = kind ∧
        d.name = name ∧ d.place.frame (r.steps source before).scopes = id := by
  induction events generalizing r with
  | nil => exact .inl h
  | cons ev events ih =>
    rcases ih h with hold | ⟨before, ev', after, rfl, hnew⟩
    · rcases (step_declares ev).mp hold with hold | ⟨d, hd, _, hkind, hname, hframe⟩
      · exact .inl hold
      · exact .inr ⟨[], ev, events, rfl, d, hd, hkind, hname, hframe⟩
    · exact .inr ⟨ev :: before, ev', after, rfl, hnew⟩

/-- Every name to unwrap is declared in a frame before any reference to it from that frame, or from a
frame inside of it, is met. -/
def DeclaredFirst (source : List Char) (r : Run) (events : List Event) : Prop :=
  ∀ n ev, events[n]? = some ev → ∀ d ∈ ev.decls, d.kind = .unwrap →
    ∀ ref ∈ (r.steps source (events.take n)).references, ref.name = d.name →
      ¬ (r.steps source events).scopes.Within
        (d.place.frame (r.steps source (events.take n)).scopes) ref.frame

theorem DeclaredFirst.not_within {events before after : List Event} {ev : Event}
    (h : DeclaredFirst source r events) (heq : events = before ++ ev :: after) {d : Decl}
    (hd : d ∈ ev.decls) (hkind : d.kind = .unwrap) {ref : Reference}
    (href : ref ∈ (r.steps source before).references) (hname : ref.name = d.name) :
    ¬ (r.steps source events).scopes.Within (d.place.frame (r.steps source before).scopes)
      ref.frame := by
  have htake : events.take before.length = before := by simp [heq]
  have hev : events[before.length]? = some ev := by simp [heq]
  have hnot := h before.length ev hev d hd hkind ref (by rwa [htake]) hname
  rwa [htake] at hnot

/-- When a reference is met, the counts say what the frames say in the end. -/
theorem active_iff_resolves {before after : List Event} {m : Mention} {id : Nat} {rest : List Nat}
    (hcounted : r.scopes.Counted)
    (hstack : (r.steps source before).scopes.stack = id :: rest)
    (hunmixed : (r.steps source (before ++ .mention m :: after)).scopes.Unmixed)
    (hfirst : DeclaredFirst source r (before ++ .mention m :: after)) :
    (r.steps source before).scopes.isActiveUnwrap m.id.name = true ↔
      (r.steps source (before ++ .mention m :: after)).scopes.resolve id m.id.name =
        some .unwrap := by
  have hmet : (r.steps source before).scopes.Counted := steps_counted hcounted before
  have hextends : Extends (r.steps source before)
      (r.steps source (before ++ .mention m :: after)) := by
    rw [steps_append]
    exact steps_extends _ _
  have hchained : Scopes.Chained (r.steps source (before ++ .mention m :: after)).scopes.shape
      (id :: rest) := (hstack ▸ hmet.chained).mono hextends.shape
  rw [hmet.isActiveUnwrap_iff, hunmixed.resolve_iff hchained, hstack]
  constructor
  · rintro ⟨⟨outer, houter, hdeclares⟩, _⟩
    exact ⟨outer, houter, hextends.names _ _ _ hdeclares⟩
  · rintro ⟨outer, houter, hdeclares⟩
    refine ⟨⟨outer, houter, ?_⟩, fun other _ hknown => ?_⟩
    · have hlater := hdeclares
      rw [steps_append] at hlater
      rcases exists_of_declares hlater with hearlier | ⟨between, ev, last, heq, d, hd, hkind, hname, hframe⟩
      · exact hearlier
      · -- the declaration comes after the reference, from whose frame it can be seen
        cases between with
        | nil =>
          obtain ⟨rfl, _⟩ : .mention m = ev ∧ after = last := by simpa using heq
          simp [Event.decls] at hd
        | cons first between =>
          obtain ⟨rfl, rfl⟩ : .mention m = first ∧ after = between ++ ev :: last := by
            simpa using heq
          have hsplit : before ++ .mention m :: (between ++ ev :: last) =
              (before ++ .mention m :: between) ++ ev :: last := by simp
          have href : recorded (r.steps source before) m ∈
              (r.steps source (before ++ .mention m :: between)).references := by
            rw [steps_append, steps_cons]
            refine (steps_extends _ between).references.subset ?_
            exact List.mem_append_right _ (List.mem_singleton_self _)
          have hnot := hfirst.not_within hsplit hd hkind href hname.symm
          rw [steps_append r before (.mention m :: between), hframe] at hnot
          refine absurd ?_ hnot
          have hcurrent : (recorded (r.steps source before) m).frame = id := by
            simp [recorded, Scopes.current, hstack]
          rw [hcurrent]
          exact hchained.within houter
    · exact hunmixed _ _ _ hdeclares (hextends.names _ _ _ hknown)

/-- Both ways of resolving give the same answer for every reference of a run. -/
theorem isActive_agrees {events : List Event} (hcounted : r.scopes.Counted)
    (hopen : r.scopes.stack ≠ []) (hnone : r.references = []) (hevents : Bracketed events)
    (hunmixed : (r.steps source events).scopes.Unmixed)
    (hfirst : DeclaredFirst source r events) {ref : Reference}
    (href : ref ∈ (r.steps source events).references) :
    ref.isActive (r.steps source events).scopes.leave .lexical =
      ref.isActive (r.steps source events).scopes.leave .counting := by
  rcases exists_of_mem_references href with hold | ⟨before, m, after, rfl, rfl⟩
  · simp [hnone] at hold
  · obtain ⟨id, rest, hstack⟩ : ∃ id rest, (r.steps source before).scopes.stack = id :: rest := by
      have hsuffix : r.scopes.stack <:+ (r.steps source before).scopes.stack :=
        (hevents.stack r).2 before _ rfl
      cases hstack : (r.steps source before).scopes.stack with
      | nil => exact absurd (List.suffix_nil.mp (hstack ▸ hsuffix)) hopen
      | cons id rest => exact ⟨id, rest, rfl⟩
    have hcurrent : (r.steps source before).scopes.current = id := by
      simp [Scopes.current, hstack]
    have hiff := active_iff_resolves hcounted hstack hunmixed hfirst
    simp only [Reference.isActive, recorded, Scopes.resolve_leave, hcurrent]
    rw [Bool.eq_iff_iff, beq_iff_eq]
    exact hiff.symm

/-- Two ways to resolve names that agree on all references append the same values. -/
theorem resolveAll_congr {scopes : Scopes} {marked : List Span} {resolution resolution' : Resolution}
    {refs : List Reference}
    (h : ∀ ref ∈ refs, ref.isActive scopes resolution = ref.isActive scopes resolution')
    (em : Emitter) : Reference.resolveAll scopes marked resolution refs em =
      Reference.resolveAll scopes marked resolution' refs em := by
  induction refs generalizing em with
  | nil => rfl
  | cons ref refs ih =>
    obtain ⟨hhere, hrest⟩ := List.forall_mem_cons.mp h
    have hclass : ref.classify scopes marked resolution = ref.classify scopes marked resolution' := by
      rw [Reference.classify, Reference.classify, hhere]
    rw [Reference.resolveAll, List.foldl_cons, ← Reference.resolveAll, ih hrest, hclass]
    rfl

/-- A run comes to the same in both ways. -/
theorem finish_agrees (o : Options) {events : List Event} (hcounted : r.scopes.Counted)
    (hopen : r.scopes.stack ≠ []) (hnone : r.references = []) (hevents : Bracketed events)
    (hunmixed : (r.steps source events).scopes.Unmixed) (hfirst : DeclaredFirst source r events) :
    (r.steps source events).finish { o with resolution := .lexical } =
      (r.steps source events).finish { o with resolution := .counting } := by
  have hactive : ∀ ref ∈ (r.steps source events).references,
      ref.isActive (r.steps source events).scopes.leave .lexical =
        ref.isActive (r.steps source events).scopes.leave .counting := fun ref href =>
    isActive_agrees hcounted hopen hnone hevents hunmixed hfirst href
  simp only [Run.finish, resolveAll_congr hactive]

end Runs

def Setting.resolving (s : Setting) (resolution : Resolution) : Setting :=
  { s with options := { s.options with resolution } }

def Piece.resolving (resolution : Resolution) : Piece → Piece
  | .event ev => .event ev
  | .part s v => .part (s.resolving resolution) v

section Settings

variable (s : Setting) (resolution : Resolution)

-- what a sigil gives rise to is decided without resolving any name
theorem mention_resolving (m : Mention) : mention (s.resolving resolution) m = mention s m :=
  rfl

theorem callEvents_resolving (settled : Bool) (callee : Expr) (args : List Item) :
    callEvents (s.resolving resolution) settled callee args = callEvents s settled callee args :=
  rfl

theorem functionNameEvents_resolving (name : Ident) (body : List Stmt) :
    functionNameEvents (s.resolving resolution) name body = functionNameEvents s name body :=
  rfl

theorem attrEvents_resolving (name : AttrName) (braced : Bool) (value : Option Expr) :
    attrEvents (s.resolving resolution) name braced value = attrEvents s name braced value :=
  rfl

theorem exempt_resolving (name : AttrName) :
    ({ s with isExempt := s.isExempt || s.isExemptAttr name } : Setting).resolving resolution =
      { s.resolving resolution with
        isExempt := (s.resolving resolution).isExempt ||
          (s.resolving resolution).isExemptAttr name } :=
  rfl

theorem events_resolving (es : List Event) :
    (events es).map (Piece.resolving resolution) = events es := by
  simp [events, Piece.resolving]

theorem values_resolving (es : List Expr) :
    (values s es).map (Piece.resolving resolution) = values (s.resolving resolution) es := by
  simp [values, Piece.resolving]

theorem patterns_resolving (ps : List Pattern) :
    (patterns s ps).map (Piece.resolving resolution) = patterns (s.resolving resolution) ps := by
  simp [patterns, Piece.resolving]

theorem stmtPieces_resolving (stmts : List Stmt) :
    (stmtPieces s stmts).map (Piece.resolving resolution) =
      stmtPieces (s.resolving resolution) stmts := by
  simp [stmtPieces, Piece.resolving]

theorem keyPieces_resolving (k : Key) :
    (keyPieces s k).map (Piece.resolving resolution) = keyPieces (s.resolving resolution) k := by
  cases k <;> simp [keyPieces, values_resolving]

theorem arrowPieces_resolving (params : List Pattern) (body : List Piece) :
    (arrowPieces s params body).map (Piece.resolving resolution) =
      arrowPieces (s.resolving resolution) params (body.map (Piece.resolving resolution)) := by
  simp [arrowPieces, events_resolving, patterns_resolving]

theorem exprOuter_resolving (chain : List Span) (settled : Bool) (e : Expr) :
    exprOuter (s.resolving resolution) chain settled e =
      (exprOuter s chain settled e).map (Piece.resolving resolution) := by
  cases e with
  | update span operand =>
    cases operand <;> simp [exprOuter, values_resolving, mention_resolving, Piece.resolving]
  | function span name fn | classDef span name cls =>
    cases name <;> simp [exprOuter, Piece.resolving]
  | _ =>
    simp [exprOuter, events_resolving, itemPieces, values_resolving, mention_resolving,
      callEvents_resolving, Piece.resolving]

theorem declaratorOuter_resolving (place : Place) (d : Declarator) :
    declaratorOuter (s.resolving resolution) place d =
      (declaratorOuter s place d).map (Piece.resolving resolution) := by
  obtain ⟨span, target, init⟩ := d
  have hcallee : unwrapCallee? (s.resolving resolution) init = unwrapCallee? s init := rfl
  have hvalue : functionValueEvents (s.resolving resolution) target init =
    functionValueEvents s target init := rfl
  simp only [declaratorOuter, hcallee, hvalue]
  cases unwrapCallee? s init with
  | none => simp [events_resolving, patterns_resolving, values_resolving]
  | some callee =>
    have hunwrap : unwrapEvents? (s.resolving resolution) place span.hi callee target =
      unwrapEvents? s place span.hi callee target := rfl
    simp only [hunwrap]
    cases unwrapEvents? s place span.hi callee target <;>
      simp [events_resolving, patterns_resolving, Piece.resolving]

theorem stmtOuter_resolving (st : Stmt) :
    stmtOuter (s.resolving resolution) st = (stmtOuter s st).map (Piece.resolving resolution) := by
  cases st with
  | function span name fn =>
    cases fn
    simp [stmtOuter, events_resolving, functionNameEvents_resolving, Piece.resolving]
  | resource span decls =>
    have hresource : resourceOuter (s.resolving resolution) =
        fun d => (resourceOuter s d).map (Piece.resolving resolution) := by
      funext d
      cases d
      simp [resourceOuter, patterns_resolving, values_resolving]
    simp only [stmtOuter, List.map_flatMap, hresource]
  | _ =>
    simp [stmtOuter, events_resolving, values_resolving, stmtPieces_resolving, Piece.resolving]

/-- What a visit consists of does not depend on how names are resolved. -/
theorem outer_resolving (v : Visit) :
    v.outer (s.resolving resolution) = (v.outer s).map (Piece.resolving resolution) := by
  cases v with
  | expr chain settled e => exact exprOuter_resolving s resolution chain settled e
  | declarator place d => exact declaratorOuter_resolving s resolution place d
  | stmt st => exact stmtOuter_resolving s resolution st
  | property p =>
    cases p <;> simp [Visit.outer, propertyOuter, values_resolving, keyPieces_resolving,
      mention_resolving, Piece.resolving]
  | pattern p =>
    cases p <;> simp [Visit.outer, patternOuter, values_resolving, patterns_resolving,
      Piece.resolving]
  | target p =>
    cases p <;> simp [Visit.outer, targetOuter, values_resolving, mention_resolving, Piece.resolving]
  | field f =>
    cases f <;> simp [Visit.outer, fieldOuter, values_resolving, patterns_resolving,
      keyPieces_resolving]
  | targetField f =>
    cases f <;> simp [Visit.outer, targetFieldOuter, values_resolving, keyPieces_resolving,
      mention_resolving, Piece.resolving]
  | func f => rfl
  | cls c =>
    cases c
    simp [Visit.outer, values_resolving, Piece.resolving]
  | member m =>
    cases m <;> simp [Visit.outer, memberOuter, values_resolving, keyPieces_resolving,
      Piece.resolving]
  | attr a =>
    cases a <;> simp [Visit.outer, attrOuter, values_resolving, events_resolving,
      attrEvents_resolving, exempt_resolving]

def Scope.resolving (S : Scope) : Scope :=
  ⟨S.kind, S.pieces.map (Piece.resolving resolution)⟩

/-- Nor does the scope it opens. -/
theorem scope_resolving (v : Visit) :
    v.scope? (s.resolving resolution) = (v.scope? s).map (Scope.resolving resolution) := by
  cases v with
  | expr chain settled e =>
    cases e with
    | function span name fn | classDef span name cls =>
      cases name <;> simp [Visit.scope?, exprScope, Scope.resolving, Piece.resolving]
    | _ =>
      simp [Visit.scope?, exprScope, Scope.resolving, arrowPieces_resolving, stmtPieces_resolving,
        values_resolving]
  | property p =>
    cases p <;> simp [Visit.scope?, propertyScope, Scope.resolving, arrowPieces_resolving,
      stmtPieces_resolving]
  | func f =>
    cases f
    simp [Visit.scope?, funcScope, Scope.resolving, values_resolving, events_resolving,
      patterns_resolving, stmtPieces_resolving]
  | member m =>
    cases m <;> simp [Visit.scope?, memberScope, Scope.resolving, values_resolving,
      events_resolving, patterns_resolving, stmtPieces_resolving, List.map_flatMap]
  | stmt st =>
    cases st <;> simp [Visit.scope?, stmtScope, Scope.resolving, values_resolving,
      arrowPieces_resolving, stmtPieces_resolving, Piece.resolving]
  | pattern _ | target _ | field _ | targetField _ | cls _ | attr _ | declarator _ _ => rfl

theorem expand_resolving {ps : List Piece}
    (h : ∀ s v, .part s v ∈ ps → v.trace (s.resolving resolution) = v.trace s) :
    expand (ps.map (Piece.resolving resolution)) = expand ps := by
  induction ps with
  | nil => rfl
  | cons p ps ih =>
    rw [List.map_cons, expand_cons, expand_cons, ih fun s v hv => h s v (by simp [hv])]
    cases p with
    | event ev => rfl
    | part s v => simp [Piece.resolving, Piece.trace, h s v (by simp)]

/-- The events of a walk are the same however names are resolved. -/
theorem trace_resolving (v : Visit) : v.trace (s.resolving resolution) = v.trace s := by
  induction s, v using Visit.induct with
  | step s v ih =>
    rw [Visit.trace_eq, Visit.trace_eq, outer_resolving, scope_resolving,
      expand_resolving resolution fun s' v' h => ih s' v' (List.mem_append_left _ h)]
    cases hS : v.scope? s with
    | none => rfl
    | some S =>
      have hpieces : expand (S.pieces.map (Piece.resolving resolution)) = expand S.pieces :=
        expand_resolving resolution
          fun s' v' h => ih s' v' (List.mem_append_right _ (by simpa [hS] using h))
      simp [Scope.trace, Scope.resolving, hpieces]

theorem traceStmts_resolving (stmts : List Stmt) :
    traceStmts (s.resolving resolution) stmts = traceStmts s stmts := by
  rw [← expand_stmtPieces, ← expand_stmtPieces, ← stmtPieces_resolving]
  exact expand_resolving resolution fun s' v _ => trace_resolving s' resolution v

end Settings

theorem seeded_counted (unwraps : List String) {scopes : Scopes} (h : scopes.Counted) :
    (unwraps.foldl (·.declareUnwrap 0) scopes).Counted ∧
      (unwraps.foldl (·.declareUnwrap 0) scopes).stack = scopes.stack := by
  induction unwraps generalizing scopes with
  | nil => exact ⟨h, rfl⟩
  | cons name unwraps ih =>
    obtain ⟨hcounted, hstack⟩ := ih (h.declare .unwrap 0 name)
    exact ⟨hcounted, hstack.trans (scopes.declare_grows .unwrap 0 name).stack⟩

def seeded (unwraps : List String) : Run :=
  let start := Run.start 0 .expression {}
  { start with scopes := unwraps.foldl (·.declareUnwrap 0) start.scopes }

/-- A test that no name is declared in both ways. -/
theorem unmixed_of_all {scopes : Scopes} (h : (scopes.frames.all fun f => f.unwrap.all fun name =>
    scopes.frames.all fun g => !g.known.contains name) = true) : scopes.Unmixed := by
  rintro name id id' ⟨f, hf, hunwrap⟩ ⟨g, hg, hknown⟩
  have hfree := List.all_eq_true.mp (List.all_eq_true.mp (List.all_eq_true.mp h f
    (List.mem_of_getElem? hf)) name hunwrap) g (List.mem_of_getElem? hg)
  have hknown : name ∈ g.known := hknown
  simp [hknown] at hfree

/-- Frame `outer` is not met on the way out of a frame, in `fuel` steps at most. -/
def outside (scopes : Scopes) (outer : Nat) : Nat → Nat → Bool
  | 0, _ => false
  | fuel + 1, id => id != outer && ((scopes.shape[id]?).bind Prod.snd).all (outside scopes outer fuel)

theorem not_within_of_outside {scopes : Scopes} {outer fuel id : Nat}
    (h : outside scopes outer fuel id = true) : ¬ scopes.Within outer id := by
  induction fuel generalizing id with
  | zero => simp [outside] at h
  | succ fuel ih =>
    rw [outside, Bool.and_eq_true, bne_iff_ne] at h
    intro hwithin
    cases hwithin with
    | self => exact h.1 rfl
    | step hparent hwithin => exact ih (by simpa [hparent] using h.2) hwithin

def declaresFirst (source : List Char) (r : Run) (events : List Event) : Bool :=
  (List.range events.length).all fun n =>
    let before := r.steps source (events.take n)
    (events[n]?).all fun ev => ev.decls.all fun d => d.kind == .known ||
      before.references.all fun ref => ref.name != d.name ||
        outside (r.steps source events).scopes (d.place.frame before.scopes) events.length ref.frame

/-- The test is sound. -/
theorem DeclaredFirst.of_test {source : List Char} {r : Run} {events : List Event}
    (h : declaresFirst source r events = true) : DeclaredFirst source r events := by
  intro n ev hev d hd hkind ref href hname
  have hn : n ∈ List.range events.length :=
    List.mem_range.mpr (List.getElem?_eq_some_iff.mp hev).1
  have hall := List.all_eq_true.mp h n hn
  simp only [hev, Option.all_some, List.all_eq_true] at hall
  have hrefs : ∀ ref ∈ (r.steps source (events.take n)).references, ¬ ref.name = d.name ∨
      outside (r.steps source events).scopes
        (d.place.frame (r.steps source (events.take n)).scopes) events.length ref.frame = true := by
    simpa [hkind] using hall d hd
  exact not_within_of_outside ((hrefs ref href).resolve_left fun hne => hne hname)

/-- Where no name is declared in both ways and names to unwrap are declared before they are referred
to, a script and a lone expression come to the same however names are resolved. -/
theorem lexical_eq_counting (o : Options) (source : List Char) :
    (∀ session base stmts,
      (scriptRun o session base source stmts).scopes.Unmixed →
      DeclaredFirst source (.start base .program session) (traceStmts (setting o source) stmts) →
      script { o with resolution := .lexical } session base source stmts =
        script { o with resolution := .counting } session base source stmts) ∧
    ∀ unwraps e,
      ((seeded unwraps).steps source (traceExpr (setting o source) [] false e)).scopes.Unmixed →
      DeclaredFirst source (seeded unwraps) (traceExpr (setting o source) [] false e) →
      expression { o with resolution := .lexical } unwraps source e =
        expression { o with resolution := .counting } unwraps source e := by
  refine ⟨fun session base stmts hunmixed hfirst => ?_, fun unwraps e hunmixed hfirst => ?_⟩
  · have htrace (resolution : Resolution) :
        traceStmts (setting { o with resolution } source) stmts =
          traceStmts (setting o source) stmts :=
      traceStmts_resolving (setting o source) resolution stmts
    rw [script, script, htrace .lexical, htrace .counting]
    exact finish_agrees o (Scopes.root_counted _) (by simp [Run.start, Scopes.root, Scopes.enter]) rfl
      (bracketed_traceStmts _ stmts) hunmixed hfirst
  · have htrace (resolution : Resolution) :
        traceExpr (setting { o with resolution } source) [] false e =
          traceExpr (setting o source) [] false e :=
      trace_resolving (setting o source) resolution (.expr [] false e)
    obtain ⟨hcounted, hstack⟩ := seeded_counted unwraps (Scopes.root_counted .expression)
    rw [expression, expression, htrace .lexical, htrace .counting]
    refine finish_agrees o (r := seeded unwraps) hcounted ?_ rfl
      (bracketed_trace _ (.expr [] false e)) hunmixed hfirst
    exact fun hnil => absurd (hstack.symm.trans hnil) (by simp [Scopes.root, Scopes.enter])

def blocksText : List Char :=
  "{ let a = $f(); a }{ let a = $g(); a }".toList

def blocksStmts : List Stmt :=
  [.block ⟨0, 19⟩ [.vars ⟨2, 15⟩ .lexical [.mk ⟨6, 14⟩ (.name ⟨"a", ⟨6, 7⟩⟩)
      (some (.call ⟨10, 14⟩ .plain (.name ⟨"$f", ⟨10, 12⟩⟩) []))],
      .expr ⟨16, 17⟩ (.name ⟨"a", ⟨16, 17⟩⟩)],
    .block ⟨19, 38⟩ [.vars ⟨21, 34⟩ .lexical [.mk ⟨25, 33⟩ (.name ⟨"a", ⟨25, 26⟩⟩)
      (some (.call ⟨29, 33⟩ .plain (.name ⟨"$g", ⟨29, 31⟩⟩) []))],
      .expr ⟨35, 36⟩ (.name ⟨"a", ⟨35, 36⟩⟩)]]

/-- A reference in the first block does not stand in the way of the declaration in the second. -/
theorem lexical_eq_counting_blocks :
    ((scriptRun {} {} 0 blocksText blocksStmts).scopes.Unmixed ∧
      DeclaredFirst blocksText (.start 0 .program {})
        (traceStmts (setting {} blocksText) blocksStmts) ∧
      script { resolution := .lexical } {} 0 blocksText blocksStmts =
        script { resolution := .counting } {} 0 blocksText blocksStmts) ∧
    ((seeded ["a"]).steps "a".toList (traceExpr (setting {} "a".toList) [] false
        (.name ⟨"a", ⟨0, 1⟩⟩))).scopes.Unmixed ∧
      DeclaredFirst "a".toList (seeded ["a"]) (traceExpr (setting {} "a".toList) [] false
        (.name ⟨"a", ⟨0, 1⟩⟩)) ∧
      expression { resolution := .lexical } ["a"] "a".toList (.name ⟨"a", ⟨0, 1⟩⟩) =
        expression { resolution := .counting } ["a"] "a".toList (.name ⟨"a", ⟨0, 1⟩⟩) := by
  have hblocks : (scriptRun {} {} 0 blocksText blocksStmts).scopes.Unmixed :=
    unmixed_of_all (by decide +kernel)
  have hfirst : DeclaredFirst blocksText (.start 0 .program {})
      (traceStmts (setting {} blocksText) blocksStmts) := .of_test (by decide +kernel)
  have hname : ((seeded ["a"]).steps "a".toList (traceExpr (setting {} "a".toList) [] false
      (.name ⟨"a", ⟨0, 1⟩⟩))).scopes.Unmixed := unmixed_of_all (by decide +kernel)
  have hseeded : DeclaredFirst "a".toList (seeded ["a"])
      (traceExpr (setting {} "a".toList) [] false (.name ⟨"a", ⟨0, 1⟩⟩)) :=
    .of_test (by decide +kernel)
  exact ⟨⟨hblocks, hfirst, (lexical_eq_counting {} blocksText).1 {} 0 blocksStmts hblocks hfirst⟩,
    hname, hseeded, (lexical_eq_counting {} "a".toList).2 ["a"] _ hname hseeded⟩

end Walk

end RefSugar

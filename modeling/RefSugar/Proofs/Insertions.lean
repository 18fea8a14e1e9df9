import RefSugar.Proofs.Extents

/-! Where a walk inserts something at once: in front of and behind what it wraps. In a tree whose
spans are nested, no two wrappings open or close at the same offset, a name that ends where a wrapping
closes is what is wrapped, and nothing closes behind a call of `$$`. -/
namespace RefSugar.Walk

open Syntax

namespace Event

def opens : Event → List Nat
  | .edit (.insertBefore pos _) => [pos]
  | _ => []

def closes : Event → List Nat
  | .edit (.insertAfter pos _) => [pos]
  | _ => []

end Event

def opensOf (events : List Event) : List Nat :=
  events.flatMap Event.opens

def closesOf (events : List Event) : List Nat :=
  events.flatMap Event.closes

def Starts (S : List Span) (pos : Nat) : Prop :=
  ∃ a ∈ S, a.lo ≤ pos ∧ pos < a.hi

def Ends (S : List Span) (pos : Nat) : Prop :=
  ∃ a ∈ S, a.lo < pos ∧ pos ≤ a.hi

/-- How the wrappings among events lie, and how they would if what `L` tells were wrapped as well. `K`
tells which calls are not to be wrapped. -/
structure Woven (S : List Span) (E : List Event) (L : List Span) (K : Span → Prop) : Prop where
  opens : ∀ p ∈ opensOf E, Starts S p
  closes : ∀ p ∈ closesOf E, Ends S p
  opens_once : (opensOf E).Nodup
  closes_once : (closesOf E).Nodup
  names : ∀ m, .mention m ∈ E → Starts S m.id.span.lo ∧ Ends S m.id.span.hi
  open_named : ∀ m, .mention m ∈ E → m.isShorthand = true → m.id.span.lo ∈ opensOf E →
    .mark m.id.span ∈ E
  close_named : ∀ m, .mention m ∈ E → m.id.span.hi ∈ closesOf E → .mark m.id.span ∈ E
  leaves : ∀ l ∈ L, Starts S l.lo ∧ Ends S l.hi
  leaves_once : (L.map Span.lo).Nodup ∧ (L.map Span.hi).Nodup
  leaf_fresh : ∀ l ∈ L, l.lo ∉ opensOf E ∧ l.hi ∉ closesOf E
  leaf_named : ∀ l ∈ L, ∀ m, .mention m ∈ E →
    (l.hi = m.id.span.hi ∨ m.isShorthand = true ∧ l.lo = m.id.span.lo) → l = m.id.span
  calls : ∀ k, K k → Ends S k.hi
  call_shut : ∀ k, K k → k.hi ∉ closesOf E ∧ ∀ l ∈ L, l.hi ≠ k.hi

@[simp] theorem opensOf_nil : opensOf [] = [] := rfl

@[simp] theorem closesOf_nil : closesOf [] = [] := rfl

@[simp] theorem opensOf_cons (ev : Event) (E : List Event) :
    opensOf (ev :: E) = ev.opens ++ opensOf E :=
  List.flatMap_cons

@[simp] theorem closesOf_cons (ev : Event) (E : List Event) :
    closesOf (ev :: E) = ev.closes ++ closesOf E :=
  List.flatMap_cons

@[simp] theorem opensOf_append (E E' : List Event) : opensOf (E ++ E') = opensOf E ++ opensOf E' :=
  List.flatMap_append

@[simp] theorem closesOf_append (E E' : List Event) :
    closesOf (E ++ E') = closesOf E ++ closesOf E' :=
  List.flatMap_append

section Places

variable {S S' : List Span} {pos : Nat}

theorem Starts.of_append : Starts (S ++ S') pos ↔ Starts S pos ∨ Starts S' pos := by
  simp only [Starts, List.mem_append, or_and_right, exists_or]

theorem Ends.of_append : Ends (S ++ S') pos ↔ Ends S pos ∨ Ends S' pos := by
  simp only [Ends, List.mem_append, or_and_right, exists_or]

theorem starts_disjoint (hapart : AllApart S S') : Starts S pos → ¬ Starts S' pos := by
  rintro ⟨a, ha, hlo, hhi⟩ ⟨b, hb, hlo', hhi'⟩
  rcases hapart a ha b hb with h | h <;> omega

theorem ends_disjoint (hapart : AllApart S S') : Ends S pos → ¬ Ends S' pos := by
  rintro ⟨a, ha, hlo, hhi⟩ ⟨b, hb, hlo', hhi'⟩
  rcases hapart a ha b hb with h | h <;> omega

theorem Starts.widen (hheld : ∀ a ∈ S, ∃ b ∈ S', b.lo ≤ a.lo ∧ a.hi ≤ b.hi) (h : Starts S pos) :
    Starts S' pos := by
  obtain ⟨a, ha, hlo, hhi⟩ := h
  obtain ⟨b, hb, hlo', hhi'⟩ := hheld a ha
  exact ⟨b, hb, by omega, by omega⟩

theorem Ends.widen (hheld : ∀ a ∈ S, ∃ b ∈ S', b.lo ≤ a.lo ∧ a.hi ≤ b.hi) (h : Ends S pos) :
    Ends S' pos := by
  obtain ⟨a, ha, hlo, hhi⟩ := h
  obtain ⟨b, hb, hlo', hhi'⟩ := hheld a ha
  exact ⟨b, hb, by omega, by omega⟩

end Places

namespace Woven

variable {S S' : List Span} {E E' : List Event} {L L' : List Span} {K K' : Span → Prop}

theorem nil : Woven [] [] [] fun _ => False := by
  constructor <;> simp

/-- An event that inserts nothing. -/
theorem silent {ev : Event} (hopens : ev.opens = []) (hcloses : ev.closes = [])
    (hnames : ev.names = []) : Woven [] [ev] [] fun _ => False := by
  have hmention (m : Mention) : ¬ .mention m = ev := by
    rintro rfl
    simp [Event.names] at hnames
  constructor <;> simp [hopens, hcloses, hmention]

theorem mention {m : Mention} (hfilled : m.id.span.lo < m.id.span.hi) :
    Woven [m.id.span] [.mention m] [m.id.span] fun _ => False := by
  have hlo : Starts [m.id.span] m.id.span.lo := ⟨_, by simp, Nat.le_refl _, hfilled⟩
  have hhi : Ends [m.id.span] m.id.span.hi := ⟨_, by simp, hfilled, Nat.le_refl _⟩
  constructor <;> simp [Event.opens, Event.closes, hlo, hhi]

/-- What lies over spans that are apart has no offset in common. -/
theorem append (h : Woven S E L K) (h' : Woven S' E' L' K') (hapart : AllApart S S') :
    Woven (S ++ S') (E ++ E') (L ++ L') fun k => K k ∨ K' k := by
  have hstart (p : Nat) : Starts S p → ¬ Starts S' p := starts_disjoint hapart
  have hend (p : Nat) : Ends S p → ¬ Ends S' p := ends_disjoint hapart
  obtain ⟨hopens, hcloses, hopen, hclose, hnames, hopenNamed, hcloseNamed, hleaves, honce, hfresh,
    hnamed, hcalls, hshut⟩ := h
  obtain ⟨hopens', hcloses', hopen', hclose', hnames', hopenNamed', hcloseNamed', hleaves', honce',
    hfresh', hnamed', hcalls', hshut'⟩ := h'
  constructor
  · grind [Starts.of_append, opensOf_append]
  · grind [Ends.of_append, closesOf_append]
  · grind [opensOf_append, List.nodup_append]
  · grind [closesOf_append, List.nodup_append]
  · grind [Starts.of_append, Ends.of_append]
  · grind [opensOf_append]
  · grind [closesOf_append]
  · grind [Starts.of_append, Ends.of_append]
  · grind [List.nodup_append]
  · grind [opensOf_append, closesOf_append]
  · grind
  · grind [Ends.of_append]
  · grind [closesOf_append]

/-- Less to wrap, over spans that hold the others. -/
theorem mono (h : Woven S E L K) (hheld : ∀ a ∈ S, ∃ b ∈ S', b.lo ≤ a.lo ∧ a.hi ≤ b.hi)
    (hsub : L'.Sublist L) (hcalls : ∀ k, K' k → K k) : Woven S' E L' K' where
  opens := fun p hp => (h.opens p hp).widen hheld
  closes := fun p hp => (h.closes p hp).widen hheld
  opens_once := h.opens_once
  closes_once := h.closes_once
  names := fun m hm => ⟨(h.names m hm).1.widen hheld, (h.names m hm).2.widen hheld⟩
  open_named := h.open_named
  close_named := h.close_named
  leaves := fun l hl =>
    ⟨(h.leaves l (hsub.subset hl)).1.widen hheld, (h.leaves l (hsub.subset hl)).2.widen hheld⟩
  leaves_once := ⟨h.leaves_once.1.sublist (hsub.map _), h.leaves_once.2.sublist (hsub.map _)⟩
  leaf_fresh := fun l hl => h.leaf_fresh l (hsub.subset hl)
  leaf_named := fun l hl => h.leaf_named l (hsub.subset hl)
  calls := fun k hk => (h.calls k (hcalls k hk)).widen hheld
  call_shut := fun k hk =>
    ⟨(h.call_shut k (hcalls k hk)).1, fun l hl => (h.call_shut k (hcalls k hk)).2 l (hsub.subset hl)⟩

theorem of_leaves (h : Woven S E L K) (hsub : L'.Sublist L) : Woven S E L' K :=
  h.mono (fun a ha => ⟨a, ha, Nat.le_refl _, Nat.le_refl _⟩) hsub fun _ => id

theorem widen (h : Woven S E L K) (hheld : ∀ a ∈ S, ∃ b ∈ S', b.lo ≤ a.lo ∧ a.hi ≤ b.hi) :
    Woven S' E L K :=
  h.mono hheld (.refl L) fun _ => id

theorem of_calls (h : Woven S E L K) (hcalls : ∀ k, K' k → K k) : Woven S E L K' :=
  h.mono (fun a ha => ⟨a, ha, Nat.le_refl _, Nat.le_refl _⟩) (.refl L) hcalls

/-- Opening and closing a scope inserts nothing. -/
theorem of_events (h : Woven S E L K) (hopens : opensOf E' = opensOf E)
    (hcloses : closesOf E' = closesOf E) (hmentions : ∀ m, .mention m ∈ E' ↔ .mention m ∈ E)
    (hmarks : ∀ a, .mark a ∈ E → .mark a ∈ E') : Woven S E' L K := by
  obtain ⟨hopen, hclose, honce, honce', hnames, hopenNamed, hcloseNamed, hleaves, hleavesOnce, hfresh,
    hnamed, hcalls, hshut⟩ := h
  constructor
  case open_named => simpa only [hopens, hmentions] using fun m hm hs hp => hmarks _ (hopenNamed m hm hs hp)
  case close_named => simpa only [hcloses, hmentions] using fun m hm hp => hmarks _ (hcloseNamed m hm hp)
  all_goals simpa only [hopens, hcloses, hmentions]

/-- Some of the leaves are wrapped. -/
theorem wrap {own : List Event} {W : List Span} (h : Woven S E L K) (hsub : W.Sublist L)
    (hopens : opensOf own = W.map Span.lo) (hcloses : closesOf own = W.map Span.hi)
    (hmarks : ∀ a ∈ W, .mark a ∈ own) (hnames : ∀ ev ∈ own, ev.names = []) :
    Woven S (own ++ E) [] K := by
  have hmention (m : Mention) : .mention m ∉ own := by
    intro hm
    have := hnames _ hm
    simp [Event.names] at this
  have hW := h.of_leaves hsub
  obtain ⟨hopen, hclose, honce, honce', hnames, hopenNamed, hcloseNamed, hleaves, hleavesOnce, hfresh,
    hnamed, hcalls, hshut⟩ := hW
  constructor
  · grind [opensOf_append]
  · grind [closesOf_append]
  · grind [opensOf_append, List.nodup_append]
  · grind [closesOf_append, List.nodup_append]
  · grind
  · grind [opensOf_append]
  · grind [closesOf_append]
  · simp
  · simp
  · simp
  · simp
  · exact hcalls
  · grind [closesOf_append]

/-- What holds everything strictly inside of it may be wrapped. -/
theorem whole {span : Span} (h : Woven [span] E L K) (hfilled : span.lo < span.hi)
    (hopens : ∀ p ∈ opensOf E, span.lo < p) (hcloses : ∀ p ∈ closesOf E, p < span.hi)
    (hkeys : ∀ m, .mention m ∈ E → m.isShorthand = true → span.lo < m.id.span.lo)
    (hnames : ∀ m, .mention m ∈ E → m.id.span.hi < span.hi)
    (hcalls : ∀ k, K k → k.hi < span.hi) : Woven [span] E [span] K where
  opens := h.opens
  closes := h.closes
  opens_once := h.opens_once
  closes_once := h.closes_once
  names := h.names
  open_named := h.open_named
  close_named := h.close_named
  leaves := by
    simp only [List.mem_singleton, forall_eq]
    exact ⟨⟨span, by simp, Nat.le_refl _, hfilled⟩, ⟨span, by simp, hfilled, Nat.le_refl _⟩⟩
  leaves_once := by simp
  leaf_fresh := by
    simp only [List.mem_singleton, forall_eq]
    exact ⟨fun hp => Nat.lt_irrefl _ (hopens _ hp), fun hp => Nat.lt_irrefl _ (hcloses _ hp)⟩
  leaf_named := by
    simp only [List.mem_singleton, forall_eq]
    rintro m hm (hhi | ⟨hshorthand, hlo⟩)
    · have := hnames m hm
      omega
    · have := hkeys m hm hshorthand
      omega
  calls := h.calls
  call_shut := by
    intro k hk
    refine ⟨(h.call_shut k hk).1, ?_⟩
    have := hcalls k hk
    simp only [List.mem_singleton, forall_eq]
    omega

/-- A call that holds everything strictly inside of it, and is not to be wrapped. -/
theorem shut {span : Span} (h : Woven [span] E [] K) (hfilled : span.lo < span.hi)
    (hcloses : ∀ p ∈ closesOf E, p < span.hi) : Woven [span] E [] fun k => K k ∨ k = span := by
  obtain ⟨hopen, hclose, honce, honce', hnames, hopenNamed, hcloseNamed, hleaves, hleavesOnce, hfresh,
    hnamed, hcalls, hshut⟩ := h
  refine ⟨hopen, hclose, honce, honce', hnames, hopenNamed, hcloseNamed, hleaves, hleavesOnce, hfresh,
    hnamed, ?_, ?_⟩
  · rintro k (hk | rfl)
    · exact hcalls k hk
    · exact ⟨k, by simp, hfilled, Nat.le_refl _⟩
  · rintro k (hk | rfl)
    · exact hshut k hk
    · exact ⟨fun hp => Nat.lt_irrefl _ (hcloses _ hp), by simp⟩

end Woven

def Visit.leaves : Visit → List Span
  | expr _ _ e => (Walk.leaves e).map Leaf.span
  | property p => (propertyLeaves [p]).map Leaf.span
  | func f => (funcLeaves f).map Leaf.span
  | stmt st => (returnLeaves [st]).map Leaf.span
  | pattern _ | target _ | field _ | targetField _ | cls _ | member _ | attr _
  | declarator _ _ => []

def Piece.leaves : Piece → List Span
  | .event ev => ev.names
  | .part _ v => v.leaves

def leavesOf (ps : List Piece) : List Span :=
  ps.flatMap Piece.leaves

/-- A walk over the pieces comes to a call of `$$` with this span. -/
def Calls (ps : List Piece) (k : Span) : Prop :=
  ∃ s chain settled callee args, Visits ps s (.expr chain settled (.call k .plain callee args)) ∧
    isExplicitCallee callee = true

section Visits

variable {p : Piece} {ps qs : List Piece} {s s' : Setting} {v v' : Visit} {k : Span}

theorem visits_append : Visits (ps ++ qs) s v ↔ Visits ps s v ∨ Visits qs s v := by
  constructor
  · intro h
    cases h with
    | here hv => exact (List.mem_append.mp hv).imp .here .here
    | further hv h => exact (List.mem_append.mp hv).imp (.further · h) (.further · h)
  · rintro (h | h)
    all_goals
      cases h with
      | here hv => exact .here (List.mem_append.mpr (by simp [hv]))
      | further hv h => exact .further (List.mem_append.mpr (by simp [hv])) h

theorem visits_part : Visits [.part s v] s' v' ↔ s' = s ∧ v' = v ∨ Visits (v.pieces s) s' v' := by
  constructor
  · intro h
    cases h with
    | here hv => exact .inl (by simpa using hv)
    | further hv h =>
      obtain ⟨rfl, rfl⟩ : _ = s ∧ _ = v := by simpa using hv
      exact .inr h
  · rintro (⟨rfl, rfl⟩ | h)
    · exact .here (by simp)
    · exact .further (by simp) h

theorem not_visits_events (es : List Event) : ¬ Visits (events es) s v := by
  intro h
  cases h with
  | here hv | further hv _ => exact part_not_mem_events hv

theorem calls_append : Calls (ps ++ qs) k ↔ Calls ps k ∨ Calls qs k := by
  simp only [Calls, visits_append, or_and_right, exists_or]

theorem calls_part : Calls [.part s v] k ↔ (∃ chain settled callee args,
    v = .expr chain settled (.call k .plain callee args) ∧ isExplicitCallee callee = true) ∨
      Calls (v.pieces s) k := by
  simp only [Calls, visits_part, or_and_right, exists_or]
  refine or_congr_left ?_
  constructor
  · rintro ⟨_, chain, settled, callee, args, ⟨rfl, rfl⟩, hcallee⟩
    exact ⟨chain, settled, callee, args, rfl, hcallee⟩
  · rintro ⟨chain, settled, callee, args, rfl, hcallee⟩
    exact ⟨s, chain, settled, callee, args, ⟨rfl, rfl⟩, hcallee⟩

/-- The event inserts nothing, and if it mentions a name, then not an empty one. -/
def Event.IsSilent (ev : Event) : Prop :=
  ev.opens = [] ∧ ev.closes = [] ∧ ∀ m, ev = .mention m → m.id.span.lo < m.id.span.hi

theorem woven_event {ev : Event} (h : ev.IsSilent) :
    Woven ev.names [ev] ev.names fun _ => False := by
  cases ev with
  | mention m => exact .mention (h.2.2 m rfl)
  | _ => exact .silent h.1 h.2.1 rfl

/-- Pieces that lie apart from each other. -/
theorem woven_pieces (hapart : (spansOf ps).Pairwise Span.Apart)
    (hevents : ∀ ev, .event ev ∈ ps → ev.IsSilent)
    (hparts : ∀ s v, .part s v ∈ ps →
      Woven v.spans (v.trace s) v.leaves (Calls [.part s v])) :
    Woven (spansOf ps) (expand ps) (leavesOf ps) (Calls ps) := by
  induction ps with
  | nil => exact Woven.nil.of_calls fun k ⟨_, _, _, _, _, h, _⟩ => not_visits_events [] h
  | cons p ps ih =>
    rw [spansOf_cons, List.pairwise_append] at hapart
    have hrest := ih hapart.2.1 (fun ev h => hevents ev (by simp [h])) fun s v h =>
      hparts s v (by simp [h])
    have hfirst : Woven p.spans p.trace p.leaves (Calls [p]) := by
      cases p with
      | event ev =>
        exact (woven_event (hevents ev (by simp))).of_calls
          fun k ⟨_, _, _, _, _, h, _⟩ => not_visits_events [ev] h
      | part s v => exact hparts s v (by simp)
    rw [spansOf_cons, expand_cons]
    exact (hfirst.append hrest hapart.2.2).of_calls fun k hk => calls_append.mp hk

end Visits

/-- Events that wrap what `W` tells, and insert nothing else. -/
structure Wraps (own : List Event) (W : List Span) : Prop where
  opens : opensOf own = W.map Span.lo
  closes : closesOf own = W.map Span.hi
  marks : ∀ a ∈ W, .mark a ∈ own
  names : ∀ ev ∈ own, ev.names = []

namespace Wraps

variable {own own' : List Event} {W : List Span}

theorem nil : Wraps [] [] := by
  constructor <;> simp

/-- Wrapping leaves opens and closes at the ends of each. -/
theorem leaves (wrapFn : String) (parts : List Leaf) :
    Wraps (Walk.wrap wrapFn parts) (parts.map Leaf.span) where
  opens := by
    induction parts with
    | nil => rfl
    | cons leaf parts ih =>
      cases leaf <;> simpa [Walk.wrap, Leaf.edits, Event.opens, Leaf.span] using ih
  closes := by
    induction parts with
    | nil => rfl
    | cons leaf parts ih =>
      cases leaf <;> simpa [Walk.wrap, Leaf.edits, Event.closes, Leaf.span] using ih
  marks := fun a ha => mark_mem_wrap.mpr ha
  names := fun ev hev => names_of_wrap hev

theorem append_silent (h : Wraps own W)
    (hsilent : ∀ ev ∈ own', ev.opens = [] ∧ ev.closes = [] ∧ ev.names = []) :
    Wraps (own' ++ own) W where
  opens := by
    have hnone : opensOf own' = [] := List.flatMap_eq_nil_iff.mpr fun ev hev => (hsilent ev hev).1
    rw [opensOf_append, hnone, List.nil_append, h.opens]
  closes := by
    have hnone : closesOf own' = [] :=
      List.flatMap_eq_nil_iff.mpr fun ev hev => (hsilent ev hev).2.1
    rw [closesOf_append, hnone, List.nil_append, h.closes]
  marks := fun a ha => List.mem_append_right _ (h.marks a ha)
  names := by
    intro ev hev
    rcases List.mem_append.mp hev with hev | hev
    · exact (hsilent ev hev).2.2
    · exact h.names ev hev

theorem cons_silent (h : Wraps own W) {ev : Event}
    (hsilent : ev.opens = [] ∧ ev.closes = [] ∧ ev.names = []) : Wraps (ev :: own) W :=
  h.append_silent fun ev' hev' => by
    obtain rfl := List.mem_singleton.mp hev'
    exact hsilent

theorem declared (h : Wraps own W) (place : Place) (names : List String) :
    Wraps (declareAll place names ++ own) W := by
  refine h.append_silent fun ev hev => ?_
  obtain ⟨name, _, rfl⟩ := List.mem_map.mp hev
  exact ⟨rfl, rfl, rfl⟩

end Wraps

/-- The events that a visit starts with, among them all that wrap. -/
def Visit.own (s : Setting) : Visit → List Event
  | .expr _ settled (.call _ _ callee args) => callEvents s settled callee args
  | .stmt (.function _ name (.mk _ _ body)) =>
    .known .current name.name :: functionNameEvents s name body
  | .declarator place (.mk span binding init) =>
    match unwrapCallee? s init with
    | none => declareAll place (boundNames binding) ++ functionValueEvents s binding init
    | some callee =>
      (unwrapEvents? s place span.hi callee binding).getD (declareAll place (boundNames binding))
  | .attr (.named name braced value) => attrEvents s name braced value
  | _ => []

def Visit.rest (s : Setting) : Visit → List Piece
  | .expr chain _ (.call span _ callee args) =>
    .part s (.expr (chain ++ [span]) false callee) :: itemPieces s args
  | .stmt (.function _ _ fn) => [.part s (.func fn)]
  | .declarator place (.mk span binding init) =>
    match unwrapCallee? s init with
    | none => patterns s [binding] ++ values s init.toList
    | some callee =>
      (if (unwrapEvents? s place span.hi callee binding).isSome then [] else patterns s [binding]) ++
        init.toList.map fun e => .part s (.expr [] true e)
  | .attr (.named name _ value) =>
    values { s with isExempt := s.isExempt || s.isExemptAttr name } value.toList
  | v => v.pieces s

section Own

variable {s : Setting}

/-- The events that wrap come first, and the parts behind them. -/
theorem pieces_eq (v : Visit) : v.pieces s = events (v.own s) ++ v.rest s := by
  cases v with
  | expr chain settled e =>
    cases e with
    | call span link callee args =>
      simp [Visit.pieces, Visit.outer, exprOuter, Visit.scope?, exprScope, Visit.own, Visit.rest]
    | _ => rfl
  | stmt st =>
    cases st with
    | function span name fn =>
      cases fn
      simp [Visit.pieces, Visit.outer, stmtOuter, Visit.scope?, stmtScope, Visit.own, Visit.rest]
    | _ => rfl
  | attr a =>
    cases a with
    | named name braced value =>
      simp [Visit.pieces, Visit.outer, attrOuter, Visit.scope?, Visit.own, Visit.rest]
    | spread e => rfl
  | declarator place d =>
    obtain ⟨span, target, init⟩ := d
    simp only [Visit.pieces, Visit.outer, Visit.scope?, declaratorOuter, Visit.own, Visit.rest,
      Option.toList_none, List.flatMap_nil, List.append_nil]
    cases unwrapCallee? s init with
    | none => simp [events]
    | some callee => cases hown : unwrapEvents? s place span.hi callee target <;> simp [hown]
  | _ => rfl

theorem wraps_sigil (wrapFn : String) (span : Span) (parts : List Leaf) :
    Wraps (stripTrailing span :: wrap wrapFn parts) (parts.map Leaf.span) :=
  (Wraps.leaves wrapFn parts).cons_silent ⟨rfl, rfl, rfl⟩

/-- A call wraps its arguments, if its name asks for it. -/
theorem wraps_call (settled : Bool) (callee : Expr) (args : List Item) (chain : List Span)
    (span : Span) (link : Link) : Wraps (callEvents s settled callee args)
      ((Visit.wrapped s (.expr chain settled (.call span link callee args))).map Leaf.span) := by
  have hstrip {c : Prop} [Decidable c] {ev : Event}
      (hev : ev.opens = [] ∧ ev.closes = [] ∧ ev.names = []) :
      ∀ ev' ∈ if c then [ev] else [], ev'.opens = [] ∧ ev'.closes = [] ∧ ev'.names = [] := by
    split <;> simp [hev]
  unfold callEvents Visit.wrapped
  dsimp only
  split
  · refine (Wraps.nil.cons_silent ⟨rfl, rfl, rfl⟩).append_silent fun ev hev => ?_
    obtain ⟨e, _, rfl⟩ := List.mem_map.mp hev
    exact ⟨rfl, rfl, rfl⟩
  · refine Wraps.append_silent ?_ (hstrip ⟨rfl, rfl, rfl⟩)
    split
    · exact (Wraps.leaves _ _).append_silent (hstrip ⟨rfl, rfl, rfl⟩)
    · exact .nil

theorem wraps_functionValue (place : Place) (span : Span) (target : Pattern) (init : Option Expr) :
    Wraps (functionValueEvents s target init)
      ((Visit.wrapped s (.declarator place (.mk span target init))).map Leaf.span) := by
  unfold functionValueEvents Visit.wrapped
  cases target with
  | name id =>
    cases init with
    | none => exact .nil
    | some e =>
      cases hname : Sigil.isSigilName id.name with
      | true => cases e <;> simp only [hname, if_true, isFunctionValue, Bool.and_true, Bool.and_false,
          Bool.false_eq_true, if_false] <;> first | exact wraps_sigil _ _ _ | exact .nil
      | false => cases e <;> simp only [hname, Bool.false_eq_true, if_false, Bool.false_and] <;>
          exact .nil
  | _ => exact .nil

/-- A declaration means as references what it wraps. -/
theorem explicit_declarator (place : Place) (d : Declarator) :
    Visit.explicit s (.declarator place d) =
      (Visit.wrapped s (.declarator place d)).map Leaf.span := by
  obtain ⟨span, target, init⟩ := d
  unfold Visit.explicit Visit.wrapped
  cases target with
  | name id =>
    cases init with
    | none => rfl
    | some e =>
      dsimp only
      split <;> rfl
  | _ => rfl

theorem wraps_declarator (place : Place) (d : Declarator) :
    Wraps (Visit.own s (.declarator place d))
      ((Visit.wrapped s (.declarator place d)).map Leaf.span) := by
  obtain ⟨span, target, init⟩ := d
  cases hcallee : unwrapCallee? s init with
  | none =>
    simp only [Visit.own, hcallee]
    exact (wraps_functionValue place span target init).declared _ _
  | some callee =>
    rw [← explicit_declarator, explicit_of_unwrapCallee hcallee]
    simp only [Visit.own, hcallee]
    cases hown : unwrapEvents? s place span.hi callee target with
    | none => simpa using Wraps.nil.declared place (boundNames target)
    | some own =>
      rcases (unwrapEvents?_cases hown).2 with ⟨id, rfl, rfl⟩ | ⟨plan, _, rfl⟩
      · exact (Wraps.nil.cons_silent ⟨rfl, rfl, rfl⟩).cons_silent ⟨rfl, rfl, rfl⟩
      · exact (Wraps.nil.cons_silent ⟨rfl, rfl, rfl⟩).cons_silent ⟨rfl, rfl, rfl⟩

/-- An attribute wraps its value, if its name asks for it. -/
theorem wraps_attr (name : AttrName) (braced : Bool) (value : Option Expr) :
    Wraps (attrEvents s name braced value)
      ((Visit.wrapped s (.attr (.named name braced value))).map Leaf.span) := by
  unfold attrEvents Visit.wrapped
  cases name with
  | qualified span space => exact .nil
  | plain id =>
    cases hsigil : Sigil.isSigilAttribute id.name with
    | false => cases braced <;> cases value <;> simpa [hsigil] using Wraps.nil
    | true =>
      cases braced with
      | false => exact .nil
      | true =>
        cases value with
        | none =>
          have hstrip : Wraps [stripTrailing id.span] [] := Wraps.nil.cons_silent ⟨rfl, rfl, rfl⟩
          simpa [hsigil] using hstrip
        | some e => simpa [hsigil] using wraps_sigil s.options.wrapFn id.span (leaves e)

/-- What a visit wraps, it wraps at its start. -/
theorem own_wraps (v : Visit) : Wraps (v.own s) ((v.wrapped s).map Leaf.span) := by
  cases v with
  | expr chain settled e =>
    cases e with
    | call span link callee args => exact wraps_call settled callee args chain span link
    | _ => exact .nil
  | stmt st =>
    cases st with
    | function span name fn =>
      obtain ⟨decorators, params, body⟩ := fn
      refine Wraps.cons_silent ?_ ⟨rfl, rfl, rfl⟩
      unfold functionNameEvents Visit.wrapped
      dsimp only
      split
      · exact wraps_sigil _ _ _
      · exact .nil
    | _ => exact .nil
  | attr a =>
    cases a with
    | named name braced value => exact wraps_attr name braced value
    | spread e => exact .nil
  | declarator place d => exact wraps_declarator place d
  | _ => exact .nil

end Own

end RefSugar.Walk

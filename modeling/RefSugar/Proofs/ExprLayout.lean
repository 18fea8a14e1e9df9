import RefSugar.Proofs.Layout
import RefSugar.Proofs.Traces

/-! The events of every walk are laid over the spans of its tree. What a walk takes away it takes
away once, unless a declaration takes the sigil in front of a callee whose first call takes it as
well. -/
namespace RefSugar.Walk

open Syntax

variable {e : Expr} {settled : Bool} {r : Span} {link : Link}

mutual

/-- The name that an expression starts with, if it is called there. -/
def headCallee? : Expr → Option Ident
  | .call _ _ (.name id) _ => some id
  | .call _ _ callee _ => headCallee? callee
  | .field _ _ object | .index _ _ object _ => headCallee? object
  | .wrapped _ _ inner => headCallee? inner
  | .update _ operand => headCallee? operand
  | .assign _ _ (.expr target) _ => headCallee? target
  | .compound _ _ parts => headCalleeOfFirst? parts
  | _ => none

def headCalleeOfFirst? : List Expr → Option Ident
  | [] => none
  | first :: _ => headCallee? first

end

/-- A call of this name takes away what the name starts with. -/
def takesFront (s : Setting) (id : Ident) : Bool :=
  Sigil.isExplicitWrap (s.text id.span) || Sigil.isUnwrapCall s.ignore (s.text id.span)

/-- The expression starts with a call that takes away what it starts with. -/
def HeadStripped (s : Setting) (e : Expr) : Prop :=
  ∃ id, headCallee? e = some id ∧ id.span.lo = e.span.lo ∧ takesFront s id = true

/-- A declaration of this pattern takes away the sigil of a call that is to be unwrapped. -/
def takesSigil (s : Setting) : Pattern → Bool
  | .name _ => true
  | target => (Unpack.plan? s.source target).isSome

/-- The declaration takes away a sigil that the first call of the callee takes away as well. -/
def StrippedTwice (s : Setting) : Declarator → Prop
  | .mk _ target init =>
    takesSigil s target = true ∧ ∃ callee, unwrapCallee? s init = some callee ∧ HeadStripped s callee

def CutsName (ok : Nat → Prop) (id : Ident) : Prop :=
  ok id.span.lo ∧ ok id.span.hi ∧ (Sigil.endsWithSigil id.name = true → ok (id.span.hi - 1))

def CutsPattern (ok : Nat → Prop) : Pattern → Prop
  | .name id => CutsName ok id
  | .object span _ | .array span _ => ok span.lo ∧ ok span.hi
  | _ => True

def CutsAt (ok : Nat → Prop) : Node → Prop
  | .expr (.name id) | .property (.shorthand id) | .field (.shorthand id _)
  | .attr (.named (.plain id) _ _) | .stmt (.function _ id _) => CutsName ok id
  | .expr (.field span _ _) | .expr (.index span _ _ _) | .expr (.call span _ _ _)
  | .expr (.keywordCall span _) | .expr (.wrapped span .instantiation _) => ok span.lo ∧ ok span.hi
  | .pattern p => CutsPattern ok p
  | .declarator (.mk span target _) => ok span.hi ∧ CutsPattern ok target
  | _ => True

def ReadsExplicit (s : Setting) : Node → Prop
  | .expr (.call _ _ callee _) =>
    Sigil.isExplicitWrap (s.text callee.span) = true → isName callee = true
  | _ => True

def readsExplicit (s : Setting) : Node → Bool
  | .expr (.call _ _ callee _) => !Sigil.isExplicitWrap (s.text callee.span) || isName callee
  | _ => true

theorem readsExplicit_iff {s : Setting} {n : Node} : readsExplicit s n = true ↔ ReadsExplicit s n := by
  unfold readsExplicit ReadsExplicit
  split
  · cases Sigil.isExplicitWrap (s.text _) <;> simp
  · simp

/-- Where the declaration takes away a sigil for the second time, that is expected. -/
def StripsOnce (twice : Nat → Prop) (s : Setting) : Node → Prop
  | .declarator (.mk span target init) => StrippedTwice s (.mk span target init) →
    ∀ callee, unwrapCallee? s init = some callee → twice callee.span.lo
  | _ => True

/-- A declaration that is walked without its pattern, which is unpacked. -/
def isUnpacked (s : Setting) (target : Pattern) (init : Option Expr) : Bool :=
  (unwrapCallee? s init).isSome && (Unpack.plan? s.source target).isSome

/-- The parts of a node that a walk comes upon. Resources are declared without being looked at. -/
def walked (s : Setting) : Node → List Node
  | .stmt (.resource _ decls) => decls.flatMap fun d => (Node.declarator d).children
  | .declarator (.mk _ target init) =>
    (if isUnpacked s target init then [] else [.pattern target]) ++ init.toList.map .expr
  | n => n.children

/-- An expression is laid over its span. What it takes away ends in front of its last byte, and if it
starts at its first byte, then a call at its head took it. -/
structure ExprLaid (g : Ground) (s : Setting) (e : Expr) : Prop where
  laid : ∀ chain settled, Laid g [e.span] (traceExpr s chain settled e) (leaves e)
  stops : g.careful → ∀ chain settled, ∀ r ∈ rangesOf (traceExpr s chain settled e), r.hi < e.span.hi
  starts : g.careful → ∀ chain, ∀ r ∈ rangesOf (traceExpr s chain false e),
    r.lo = e.span.lo → HeadStripped s e
  callee_held : ∀ callee, declaredCallee? e = some callee →
    e.span.lo ≤ callee.span.lo ∧ callee.span.hi ≤ e.span.hi
  settled_clear : g.careful → ∀ chain callee, declaredCallee? e = some callee →
    Sigil.isUnwrapCall s.ignore (s.text callee.span) = true →
    ∀ r ∈ rangesOf (traceExpr s chain true e),
      (r.hi ≤ callee.span.lo ∨ callee.span.lo + 1 ≤ r.lo) ∨
        HeadStripped s callee ∧ r.lo = callee.span.lo

section Expressions

variable {g : Ground} {s : Setting}

theorem ExprLaid.range_held (h : ExprLaid g s e) (hcareful : g.careful) {chain : List Span}
    (hr : r ∈ rangesOf (traceExpr s chain settled e)) : e.span.lo ≤ r.lo ∧ r.hi < e.span.hi := by
  obtain ⟨a, ha, hlo, _⟩ := ((h.laid chain settled).tidy hcareful).range_held r hr
  rw [List.mem_singleton] at ha
  subst ha
  exact ⟨hlo, h.stops hcareful chain settled r hr⟩

theorem HeadStripped.of_head {head : Expr} (hhead : headCallee? e = headCallee? head)
    (hlo : head.span.lo = e.span.lo) (h : HeadStripped s head) : HeadStripped s e := by
  obtain ⟨id, hid, hidlo, htakes⟩ := h
  exact ⟨id, hhead.trans hid, hidlo.trans hlo, htakes⟩

theorem laid_mention (m : Mention) (hfilled : m.id.span.lo < m.id.span.hi)
    (hcuts : CutsName g.ok m.id) :
    Laid g [m.id.span] [mention s m] [.shorthand m.id] :=
  @Laid.mention g { m with isExempt := s.isExempt } hfilled hcuts.1 hcuts.2.1

section Names

-- their equations take long to derive: tagged here, they are derived once for all lemmas below
attribute [local simp] traceExpr leaves headCallee? declaredCallee?

/-- A name takes nothing away. -/
theorem rangesOf_name (chain : List Span) (settled : Bool) (id : Ident) :
    rangesOf (traceExpr s chain settled (.name id)) = [] := by
  simp [mention, Event.ranges]

theorem laid_name {id : Ident} (hfilled : id.span.lo < id.span.hi) (hcuts : CutsName g.ok id) :
    ExprLaid g s (.name id) where
  laid := by
    intro chain settled
    simpa using (laid_mention { id, chain } hfilled hcuts).whole (Nat.le_of_lt hfilled) hcuts.1
      hcuts.2.1
  stops := by simp [mention, Event.ranges]
  starts := by simp [mention, Event.ranges]
  callee_held := by simp
  settled_clear := by simp

theorem laid_field {span : Span} {object : Expr} (h : ExprLaid g s object)
    (hle : span.lo ≤ span.hi) (hlo : span.lo ≤ object.span.lo) (hhi : object.span.hi < span.hi)
    (hcuts : g.ok span.lo ∧ g.ok span.hi) : ExprLaid g s (.field span link object) where
  laid := by
    intro chain settled
    rw [traceExpr, leaves]
    exact .whole ((h.laid _ _).widen (by simp; omega)) hle hcuts.1 hcuts.2
  stops := by
    intro hcareful chain settled r hr
    rw [traceExpr] at hr
    have := h.range_held hcareful hr
    simp only [Expr.span_field]
    omega
  starts := by
    intro hcareful chain r hr hstart
    rw [traceExpr] at hr
    have hheld := h.range_held hcareful hr
    simp only [Expr.span_field] at hstart
    exact .of_head (by simp) (by simp only [Expr.span_field]; omega)
      (h.starts hcareful _ r hr (by omega))
  callee_held := by simp
  settled_clear := by simp

end Names

/-- What a call by itself takes away. -/
theorem callEvents_ranges {callee : Expr} {args : List Item}
    (hr : r ∈ rangesOf (callEvents s settled callee args)) :
    (Sigil.isExplicitWrap (s.text callee.span) = true ∧ r = callee.span) ∨
      (settled = false ∧ isName callee = true ∧
        Sigil.isUnwrapCall s.ignore (s.text callee.span) = true ∧
        r = ⟨callee.span.lo, callee.span.lo + 1⟩) ∨
      (Sigil.isAutoWrapCall (s.text callee.span) = true ∧ 1 < (s.text callee.span).utf8ByteSize ∧
        r = ⟨callee.span.hi - 1, callee.span.hi⟩) := by
  unfold callEvents at hr
  dsimp only at hr
  split at hr
  · rename_i hexplicit
    have hmarks : rangesOf
        ((args.head?.bind Item.expr?).toList.map fun e => Event.mark e.span) = [] := by
      cases args.head?.bind Item.expr? <;> simp [Event.ranges]
    rw [rangesOf_append, hmarks] at hr
    exact .inl ⟨hexplicit, by simpa [Event.ranges] using hr⟩
  · rw [rangesOf_append, List.mem_append] at hr
    rcases hr with hr | hr
    · split at hr
      · rename_i hleading
        simp only [Bool.and_eq_true, Bool.not_eq_true'] at hleading
        exact .inr (.inl ⟨hleading.1.1, hleading.1.2, hleading.2, by
          simpa [stripLeading, Event.ranges] using hr⟩)
      · simp at hr
    · split at hr
      · rename_i hauto
        rw [rangesOf_append, rangesOf_wrap, List.append_nil] at hr
        split at hr
        · rename_i hsize
          exact .inr (.inr ⟨hauto, hsize, by simpa [stripTrailing, Event.ranges] using hr⟩)
        · simp at hr
      · simp at hr

theorem head_of_isUnwrapCall {ignore : List String} {text : String}
    (h : Sigil.isUnwrapCall ignore text = true) : text.toList.head? = some '$' := by
  unfold Sigil.isUnwrapCall at h
  split at h
  · rename_i htext
    rw [htext]
    rfl
  · simp at h

theorem getLast_of_isAutoWrapCall {text : String} (h : Sigil.isAutoWrapCall text = true) :
    text.toList.getLast? = some '$' := by
  unfold Sigil.isAutoWrapCall Sigil.endsWithSigil at h
  simp only [Bool.and_eq_true, beq_iff_eq] at h
  exact h.1

/-- Only a call of a name that no declaration has dealt with takes away the sigil in front. -/
theorem callEvents_eq {callee : Expr} {args : List Item}
    (hexplicit : Sigil.isExplicitWrap (s.text callee.span) = false) :
    callEvents s settled callee args =
      (if !settled && isName callee && Sigil.isUnwrapCall s.ignore (s.text callee.span) then
        [stripLeading callee.span] else []) ++ callEvents s true callee args := by
  simp [callEvents, hexplicit]

section Calls

variable {callee : Expr} {args : List Item} {A : List Span}
  (hok : ∀ p, Text.isBoundary p s.source = true → g.ok p) (hcallee : ExprLaid g s callee)
  (hargs : Laid g A (traceItems s args) (itemLeaves args))
  (hapart : AllApart [callee.span] A)
include hcallee hargs hapart

theorem laid_callee_args (chain : List Span) :
    Laid g ([callee.span] ++ A)
      (traceExpr s chain false callee ++ traceItems s args) (itemLeaves args) :=
  (hcallee.laid chain false).forget.append hargs hapart

include hok

/-- A call that takes away at most the sigil behind its callee. -/
theorem laid_settled (hexplicit : Sigil.isExplicitWrap (s.text callee.span) = false)
    (chain : List Span) :
    Laid g ([callee.span] ++ A)
      (callEvents s true callee args ++ (traceExpr s chain false callee ++ traceItems s args))
      (itemLeaves args) := by
  have hparts := laid_callee_args hcallee hargs hapart chain
  simp only [callEvents, hexplicit, Bool.not_true, Bool.false_and, Bool.false_eq_true, if_false,
    List.nil_append]
  split
  · rename_i hauto
    obtain ⟨hpos, hhi, hfilled⟩ := boundaries_of_back (getLast_of_isAutoWrapCall hauto)
    have hstrip : stripTrailing callee.span =
        .edit (.remove (callee.span.hi - 1) (callee.span.hi - 1 + 1)) := by
      rw [stripTrailing, Nat.sub_add_cancel (by omega)]
    split
    · rw [hstrip]
      refine (hparts.wrapped _).strip (by simp : callee.span ∈ [callee.span] ++ A) (by omega)
        (by omega) (hok _ hpos) (hok _ (by rwa [Nat.sub_add_cancel (by omega)])) ?_
      -- the callee takes nothing away at its last byte, and the arguments lie elsewhere
      intro hcareful r hr
      rw [rangesOf_append, rangesOf_wrap, List.nil_append, rangesOf_append, List.mem_append] at hr
      rcases hr with hr | hr
      · have := hcallee.stops hcareful chain false r hr
        omega
      · obtain ⟨a, ha, hlo, hhi⟩ := (hargs.tidy hcareful).range_held r hr
        exact .inl (by rcases hapart callee.span (by simp) a ha with h | h <;> omega)
    · exact hparts.wrapped _
  · exact hparts

/-- A call of `$$`. -/
theorem laid_explicit (chain : List Span) (htext : Sigil.isExplicitWrap (s.text callee.span) = true)
    (hname : g.careful → isName callee = true) :
    Laid g ([callee.span] ++ A)
      (callEvents s settled callee args ++ (traceExpr s chain false callee ++ traceItems s args))
      (itemLeaves args) := by
  have hmarks : ∀ event ∈ (args.head?.bind Item.expr?).toList.map fun e => Event.mark e.span,
      event.isQuiet = true := by
    intro event hevent
    obtain ⟨e, _, rfl⟩ := List.mem_map.mp hevent
    rfl
  simp only [callEvents, htext, if_true, List.append_assoc]
  refine Laid.append_quiet hmarks ?_
  by_cases hcareful : g.careful
  · cases callee with
    | name id =>
      have heq : (s.text id.span).toList = ['$', '$'] := by
        simp only [Sigil.isExplicitWrap, beq_iff_eq, Expr.span_name] at htext
        simp [htext]
      have hfront := @boundaries_of_front s id.span (by simp [heq])
      have hback := @boundaries_of_back s id.span (by simp [heq])
      rw [traceExpr]
      exact (Laid.erase (m := { id, chain, isExempt := s.isExempt }) hfront.2.2
        (hok _ hfront.1) (hok _ hback.2.1)).append hargs hapart
    | _ => exact absurd (hname hcareful) (by simp [isName])
  · exact Laid.careless hcareful (laid_callee_args hcallee hargs hapart chain)

/-- A call with its callee and its arguments. -/
theorem laid_callEvents {settled : Bool} (chain : List Span)
    (hname : g.careful → Sigil.isExplicitWrap (s.text callee.span) = true → isName callee = true) :
    Laid g ([callee.span] ++ A)
      (callEvents s settled callee args ++ (traceExpr s chain false callee ++ traceItems s args))
      (itemLeaves args) := by
  cases hexplicit : Sigil.isExplicitWrap (s.text callee.span) with
  | true =>
    exact laid_explicit hok hcallee hargs hapart chain hexplicit fun h => hname h hexplicit
  | false =>
    have hsettled := laid_settled hok hcallee hargs hapart hexplicit chain
    rw [callEvents_eq hexplicit, List.append_assoc]
    split
    · rename_i hleading
      simp only [Bool.and_eq_true, Bool.not_eq_true'] at hleading
      have hfront := head_of_isUnwrapCall hleading.2
      obtain ⟨hpos, hpos', hfilled⟩ := boundaries_of_front hfront
      have hsize := @text_size s callee.span (by intro hnil; simp [hnil] at hfront)
      refine hsettled.strip (by simp : callee.span ∈ [callee.span] ++ A) (Nat.le_refl _) hfilled
        (hok _ hpos) (hok _ hpos') ?_
      intro hcareful r hr
      rw [rangesOf_append, rangesOf_append, List.mem_append, List.mem_append] at hr
      rcases hr with hr | hr | hr
      · rcases callEvents_ranges hr with h | h | ⟨_, hlong, rfl⟩
        · simp [hexplicit] at h
        · simp at h
        · exact .inl (.inr (by dsimp only; omega))
      · cases callee with
        | name id => simp [rangesOf_name] at hr
        | _ => exact absurd hleading.1.2 (by simp [isName])
      · obtain ⟨a, ha, hlo, hhi⟩ := (hargs.tidy hcareful).range_held r hr
        exact .inl (by rcases hapart callee.span (by simp) a ha with h | h <;> omega)
    · exact hsettled

omit hok hapart in
/-- What a call takes away, it takes from its own callee, inside the callee, or in an argument. -/
theorem call_ranges (hcareful : g.careful) {chain : List Span}
    (hr : r ∈ rangesOf (callEvents s settled callee args ++
      (traceExpr s chain false callee ++ traceItems s args))) :
    r ∈ rangesOf (callEvents s settled callee args) ∨
      (r ∈ rangesOf (traceExpr s chain false callee) ∧ callee.span.lo ≤ r.lo ∧
        r.hi < callee.span.hi) ∨
      ∃ a ∈ A, a.lo ≤ r.lo ∧ r.hi ≤ a.hi := by
  rw [rangesOf_append, rangesOf_append, List.mem_append, List.mem_append] at hr
  rcases hr with hr | hr | hr
  · exact .inl hr
  · exact .inr (.inl ⟨hr, hcallee.range_held hcareful hr⟩)
  · exact .inr (.inr ((hargs.tidy hcareful).range_held r hr))

end Calls

theorem HeadStripped.of_name {span : Span} {id : Ident} {args : List Item}
    (hlo : id.span.lo = span.lo) (htakes : takesFront s id = true) :
    HeadStripped s (.call span link (.name id) args) :=
  ⟨id, by rw [headCallee?], hlo, htakes⟩

/-- A call is laid over its span if its callee and its arguments are over theirs. -/
theorem laid_call {span : Span} {callee : Expr} {args : List Item} {A : List Span}
    (hok : ∀ p, Text.isBoundary p s.source = true → g.ok p) (hcallee : ExprLaid g s callee)
    (hargs : Laid g A (traceItems s args) (itemLeaves args))
    (hle : span.lo ≤ span.hi) (hlo : span.lo ≤ callee.span.lo) (hhi : callee.span.hi < span.hi)
    (hinside : ∀ a ∈ A, span.lo < a.lo ∧ a.hi < span.hi) (hapart : AllApart [callee.span] A)
    (hcuts : g.ok span.lo ∧ g.ok span.hi)
    (hname : g.careful → Sigil.isExplicitWrap (s.text callee.span) = true → isName callee = true) :
    ExprLaid g s (.call span link callee args) where
  laid := by
    intro chain settled
    have hheld : ∀ a ∈ [callee.span] ++ A, span.lo ≤ a.lo ∧ a.hi ≤ span.hi := by
      intro a ha
      rcases List.mem_append.mp ha with ha | ha
      · rw [List.mem_singleton] at ha
        subst ha
        omega
      · have := hinside a ha
        omega
    have h := (@laid_callEvents g s callee args A hok hcallee hargs hapart settled
      (chain ++ [span]) hname).widen hheld
    rw [traceExpr, List.append_assoc, leaves]
    split
    · exact h.forget
    · exact h.whole hle hcuts.1 hcuts.2
  stops := by
    intro hcareful chain settled r hr
    rw [traceExpr, List.append_assoc] at hr
    rw [Expr.span_call]
    rcases call_ranges hcallee hargs hcareful hr with hr | hr | ⟨a, ha, hr⟩
    · rcases callEvents_ranges hr with ⟨_, rfl⟩ | ⟨_, _, htext, rfl⟩ | ⟨_, _, rfl⟩
      · exact hhi
      · have := (boundaries_of_front (head_of_isUnwrapCall htext)).2.2
        dsimp only
        omega
      · exact hhi
    · omega
    · have := hinside a ha
      omega
  starts := by
    intro hcareful chain r hr hstart
    rw [traceExpr, List.append_assoc] at hr
    rw [Expr.span_call] at hstart
    -- what starts with the call is taken by its own events, or inside the callee
    rcases call_ranges hcallee hargs hcareful hr with hr | ⟨hr, hlo', _⟩ | ⟨a, ha, hr⟩
    · rcases callEvents_ranges hr with ⟨htext, rfl⟩ | ⟨_, hisName, htext, rfl⟩ | ⟨hauto, hlong, rfl⟩
      · cases callee with
        | name id => exact .of_name hstart (by simpa [takesFront] using .inl htext)
        | _ => exact absurd (hname hcareful htext) (by simp [isName])
      · cases callee with
        | name id => exact .of_name hstart (by simpa [takesFront] using .inr htext)
        | _ => exact absurd hisName (by simp [isName])
      · have hlast := getLast_of_isAutoWrapCall hauto
        have hsize := @text_size s callee.span (by intro hnil; simp [hnil] at hlast)
        dsimp only at hstart
        omega
    · have hsame : callee.span.lo = span.lo := by omega
      have hhead := hcallee.starts hcareful _ r hr (by omega)
      cases callee with
      | name id => simp [rangesOf_name] at hr
      | _ => exact hhead.of_head (by rw [headCallee?]; simp) hsame
    · have := hinside a ha
      omega
  callee_held := by
    intro callee' hdeclared
    cases link <;> simp [declaredCallee?] at hdeclared
    subst hdeclared
    rw [Expr.span_call]
    omega
  settled_clear := by
    intro hcareful chain callee' hdeclared hunwrap r hr
    cases link <;> simp [declaredCallee?] at hdeclared
    subst hdeclared
    rw [traceExpr, List.append_assoc] at hr
    have hfront := head_of_isUnwrapCall hunwrap
    have hsize := @text_size s callee.span (by intro hnil; simp [hnil] at hfront)
    have hfilled := (boundaries_of_front hfront).2.2
    rcases call_ranges hcallee hargs hcareful hr with hr | ⟨hr, hlo', hhi'⟩ | ⟨a, ha, hr⟩
    · -- a settled call takes nothing at its start: that is left to the declaration
      rcases callEvents_ranges hr with ⟨htext, _⟩ | ⟨hsettled, _⟩ | ⟨_, hlong, rfl⟩
      · simp [Sigil.isExplicitWrap] at htext
        simp [htext, Sigil.isUnwrapCall] at hunwrap
      · simp at hsettled
      · exact .inl (.inr (by dsimp only; omega))
    · by_cases hstart : r.lo = callee.span.lo
      · exact .inr ⟨hcallee.starts hcareful _ r hr hstart, hstart⟩
      · exact .inl (.inr (by omega))
    · exact .inl (by rcases hapart callee.span (by simp) a ha with h | h <;> omega)

/-- Expressions that no declaration looks into. -/
theorem ExprLaid.of_ranges (hnone : declaredCallee? e = none)
    (hlaid : ∀ chain settled, Laid g [e.span] (traceExpr s chain settled e) (leaves e))
    (hranges : g.careful → ∀ chain settled, ∀ r ∈ rangesOf (traceExpr s chain settled e),
      r.hi < e.span.hi ∧ (r.lo = e.span.lo → HeadStripped s e)) : ExprLaid g s e where
  laid := hlaid
  stops := fun hcareful chain settled r hr => (hranges hcareful chain settled r hr).1
  starts := fun hcareful chain r hr => (hranges hcareful chain false r hr).2
  callee_held := by simp [hnone]
  settled_clear := by simp [hnone]

/-- Expressions with signs of their own on both sides of all that they hold. -/
theorem ExprLaid.of_enclosed {S : List Span} {L : List Leaf} (hnone : declaredCallee? e = none)
    (hparts : ∀ chain settled, Laid g S (traceExpr s chain settled e) L)
    (hinside : ∀ a ∈ S, e.span.lo < a.lo ∧ a.hi < e.span.hi)
    (hlaid : ∀ chain settled, Laid g [e.span] (traceExpr s chain settled e) L →
      Laid g [e.span] (traceExpr s chain settled e) (leaves e)) :
    ExprLaid g s e := by
  refine .of_ranges hnone ?_ ?_
  · intro chain settled
    refine hlaid chain settled ((hparts chain settled).widen ?_)
    intro a ha
    have := hinside a ha
    omega
  · intro hcareful chain settled r hr
    obtain ⟨a, ha, hlo, hhi⟩ := ((hparts chain settled).tidy hcareful).range_held r hr
    have := hinside a ha
    exact ⟨by omega, by omega⟩

theorem laid_index {span : Span} {object key : Expr}
    (hobject : ExprLaid g s object) (hkey : ExprLaid g s key)
    (hle : span.lo ≤ span.hi) (hlo : span.lo ≤ object.span.lo) (hhi : object.span.hi < span.hi)
    (hinside : span.lo < key.span.lo ∧ key.span.hi < span.hi)
    (hapart : object.span.Apart key.span) (hcuts : g.ok span.lo ∧ g.ok span.hi) :
    ExprLaid g s (.index span link object key) := by
  refine .of_ranges rfl ?_ ?_
  · intro chain settled
    have h := (hobject.laid (chain ++ [span]) false).append (hkey.laid [] false)
      (by simpa [AllApart] using hapart)
    rw [traceExpr, leaves]
    exact .whole (h.widen (by simp; omega)) hle hcuts.1 hcuts.2
  · intro hcareful chain settled r hr
    rw [traceExpr, rangesOf_append, List.mem_append] at hr
    rw [Expr.span_index]
    rcases hr with hr | hr
    · have := hobject.range_held hcareful hr
      refine ⟨by omega, fun hstart => ?_⟩
      exact (hobject.starts hcareful _ r hr (by omega)).of_head (by rw [headCallee?])
        (by rw [Expr.span_index]; omega)
    · have := hkey.range_held hcareful hr
      exact ⟨by omega, by omega⟩

theorem laid_wrapped {span : Span} {kind : Wrapping} {inner : Expr}
    (h : ExprLaid g s inner) (hle : span.lo ≤ span.hi) (hlo : span.lo ≤ inner.span.lo)
    (hhi : inner.span.hi ≤ span.hi) (hcuts : kind = .instantiation → g.ok span.lo ∧ g.ok span.hi) :
    ExprLaid g s (.wrapped span kind inner) where
  laid := by
    intro chain settled
    have hwide : ∀ settled, Laid g [span] (traceExpr s (chain ++ [span]) settled inner)
        (leaves inner) := fun settled => (h.laid _ settled).widen (by simp; omega)
    rw [traceExpr, leaves]
    split
    · rename_i hkind
      exact (hwide _).whole hle (hcuts hkind).1 (hcuts hkind).2
    · exact hwide _
  stops := by
    intro hcareful chain settled r hr
    rw [traceExpr] at hr
    have := h.range_held hcareful hr
    rw [Expr.span_wrapped]
    omega
  starts := by
    intro hcareful chain r hr hstart
    rw [traceExpr, Bool.false_and] at hr
    rw [Expr.span_wrapped] at hstart
    have := h.range_held hcareful hr
    exact (h.starts hcareful _ r hr (by omega)).of_head (by rw [headCallee?])
      (by rw [Expr.span_wrapped]; omega)
  callee_held := by
    intro callee hdeclared
    rw [Expr.span_wrapped]
    cases kind <;> simp only [declaredCallee?, reduceCtorEq] at hdeclared
    all_goals
      have := h.callee_held callee hdeclared
      omega
  settled_clear := by
    intro hcareful chain callee hdeclared hunwrap r hr
    rw [traceExpr] at hr
    cases kind <;> simp only [declaredCallee?, reduceCtorEq] at hdeclared
    all_goals exact h.settled_clear hcareful _ callee hdeclared hunwrap r hr

theorem laid_update {span : Span} {operand : Expr} (h : ExprLaid g s operand)
    (hname : ∀ id, operand = .name id → id.span.lo < id.span.hi ∧ CutsName g.ok id)
    (hlo : span.lo ≤ operand.span.lo) (hhi : operand.span.hi ≤ span.hi) :
    ExprLaid g s (.update span operand) := by
  by_cases hcase : ∃ id, operand = .name id
  · obtain ⟨id, rfl⟩ := hcase
    obtain ⟨hfilled, hcuts⟩ := hname id rfl
    refine .of_ranges rfl ?_ ?_
    · intro chain settled
      rw [traceExpr, leaves]
      · exact (laid_mention { id, isWrite := true } hfilled hcuts).forget.widen (by simp_all)
      all_goals simp
    · simp [traceExpr, mention, Event.ranges]
  · have htrace : ∀ chain settled,
        traceExpr s chain settled (.update span operand) = traceExpr s [] false operand := by
      intro chain settled
      rw [traceExpr]
      simpa using hcase
    refine .of_ranges rfl ?_ ?_
    · intro chain settled
      rw [htrace, leaves]
      · exact (h.laid [] false).forget.widen (by simp; omega)
      all_goals simp
    · intro hcareful chain settled r hr
      rw [htrace] at hr
      rw [Expr.span_update]
      have := h.range_held hcareful hr
      refine ⟨by omega, fun hstart => ?_⟩
      exact (h.starts hcareful _ r hr (by omega)).of_head (by rw [headCallee?])
        (by rw [Expr.span_update]; omega)

structure PatternLaid (g : Ground) (s : Setting) (p : Pattern) : Prop where
  declared : Laid g p.spans (tracePattern s p) []
  assigned : Laid g p.spans (traceTarget s p) []
  starts : g.careful → ∀ r ∈ rangesOf (traceTarget s p), (∃ a ∈ p.spans, a.lo < r.lo) ∨
    (∃ e, p = .expr e ∧ (r.lo = e.span.lo → HeadStripped s e)) ∨
    (∃ target value, p = .default target value) ∨ ∃ target, p = .rest target

/-- An assignment is laid over its span, although its target may start where it does. -/
theorem laid_assign {span : Span} {plain : Bool} {target : Pattern} {value : Expr}
    (htarget : PatternLaid g s target) (hvalue : ExprLaid g s value)
    (hstart : Node.startsAssign span target = true)
    (hcloses : span.lo < value.span.lo ∧ value.span.hi ≤ span.hi)
    (hopens : ∀ a ∈ target.spans, span.lo ≤ a.lo ∧ a.hi < span.hi)
    (hapart : AllApart target.spans [value.span]) :
    ExprLaid g s (.assign span plain target value) := by
  have hall : Laid g (target.spans ++ [value.span])
      (traceTarget s target ++ traceExpr s [] false value) ([] ++ leaves value) :=
    htarget.assigned.append (hvalue.laid [] false) hapart
  refine .of_ranges rfl ?_ ?_
  · intro chain settled
    rw [traceExpr, leaves]
    · refine hall.forget.widen ?_
      intro a ha
      rcases List.mem_append.mp ha with ha | ha
      · exact ⟨(hopens a ha).1, Nat.le_of_lt (hopens a ha).2⟩
      · rw [List.mem_singleton] at ha
        subst ha
        rw [Expr.span_assign]
        omega
    all_goals simp
  · intro hcareful chain settled r hr
    rw [traceExpr, rangesOf_append, List.mem_append] at hr
    rw [Expr.span_assign]
    rcases hr with hr | hr
    · obtain ⟨a, ha, hlo, hhi⟩ := (htarget.assigned.tidy hcareful).range_held r hr
      have hopen := hopens a ha
      refine ⟨by omega, fun hrlo => ?_⟩
      have hlater : (target.spans.all fun b => decide (span.lo < b.lo)) = true → False := by
        intro hall
        have := of_decide_eq_true (List.all_eq_true.mp hall a ha)
        omega
      rcases htarget.starts hcareful r hr with ⟨b, hb, hbr⟩ | ⟨e, rfl, hhead⟩ | ⟨t, v, rfl⟩ | ⟨t, rfl⟩
      · have := hopens b hb
        omega
      · rw [Pattern.spans, List.mem_singleton] at ha
        subst ha
        exact (hhead (by omega)).of_head (by rw [headCallee?]) (by rw [Expr.span_assign]; omega)
      · exact (hlater hstart).elim
      · exact (hlater hstart).elim
    · have := hvalue.range_held hcareful hr
      exact ⟨by omega, by omega⟩

/-- Parameters take away nothing where their arrow function starts. -/
theorem arrow_params_start {span : Span} {params : List Pattern} (hcareful : g.careful)
    (hparams : Laid g (params.flatMap Pattern.spans) (tracePatterns s params) [])
    (hstart : Node.startsArrow span params = true) :
    ∀ r ∈ rangesOf (tracePatterns s params), span.lo < r.lo := by
  intro r hr
  unfold Node.startsArrow at hstart
  split at hstart
  · simp [tracePatterns, tracePattern] at hr
  · obtain ⟨a, ha, hlo, _⟩ := (hparams.tidy hcareful).range_held r hr
    have := of_decide_eq_true (List.all_eq_true.mp hstart a ha)
    omega

@[simp] theorem rangesOf_function (names : List String) (E E' : List Event) :
    rangesOf (framed .function (declareAll .current names ++ E ++ E')) =
      rangesOf E ++ rangesOf E' := by
  have hnames : rangesOf (declareAll .current names) = [] := by
    induction names with
    | nil => rfl
    | cons name names ih => simpa [declareAll, Event.ranges] using ih
  simp [framed, Event.ranges, hnames]

section Arrows

variable {span : Span} {params : List Pattern}
  (hparams : Laid g (params.flatMap Pattern.spans) (tracePatterns s params) [])
  (hstart : Node.startsArrow span params = true)
  (hopens : ∀ a ∈ params.flatMap Pattern.spans, span.lo ≤ a.lo ∧ a.hi < span.hi)
include hparams hstart hopens

/-- An arrow function is laid over its span if its parameters and its body are. -/
theorem laid_arrow {body : List Stmt} {B : List Span}
    (hbody : Laid g B (traceStmts s body) (returnLeaves body))
    (hinside : ∀ a ∈ B, span.lo < a.lo ∧ a.hi < span.hi)
    (hapart : AllApart (params.flatMap Pattern.spans) B) :
    ExprLaid g s (.arrow span params body) := by
  refine .of_ranges rfl ?_ ?_
  · intro chain settled
    rw [traceExpr, leaves]
    refine (hparams.append hbody hapart).function.widen ?_
    intro a ha
    rw [Expr.span_arrow]
    rcases List.mem_append.mp ha with ha | ha
    · have := hopens a ha
      omega
    · have := hinside a ha
      omega
  · intro hcareful chain settled r hr
    rw [traceExpr, rangesOf_function, List.mem_append] at hr
    rw [Expr.span_arrow]
    rcases hr with hr | hr
    · obtain ⟨a, ha, _, hhi⟩ := (hparams.tidy hcareful).range_held r hr
      have := hopens a ha
      have := arrow_params_start hcareful hparams hstart r hr
      exact ⟨by omega, by omega⟩
    · obtain ⟨a, ha, hlo, hhi⟩ := (hbody.tidy hcareful).range_held r hr
      have := hinside a ha
      exact ⟨by omega, by omega⟩

theorem laid_arrowTo {result : Expr} (hresult : ExprLaid g s result)
    (hcloses : span.lo < result.span.lo ∧ result.span.hi ≤ span.hi)
    (hapart : AllApart (params.flatMap Pattern.spans) [result.span]) :
    ExprLaid g s (.arrowTo span params result) := by
  refine .of_ranges rfl ?_ ?_
  · intro chain settled
    rw [traceExpr, leaves]
    refine (hparams.append (hresult.laid [] false) hapart).function.widen ?_
    intro a ha
    rw [Expr.span_arrowTo]
    rcases List.mem_append.mp ha with ha | ha
    · have := hopens a ha
      omega
    · rw [List.mem_singleton] at ha
      subst ha
      omega
  · intro hcareful chain settled r hr
    rw [traceExpr, rangesOf_function, List.mem_append] at hr
    rw [Expr.span_arrowTo]
    rcases hr with hr | hr
    · obtain ⟨a, ha, _, hhi⟩ := (hparams.tidy hcareful).range_held r hr
      have := hopens a ha
      have := arrow_params_start hcareful hparams hstart r hr
      exact ⟨by omega, by omega⟩
    · have := hresult.range_held hcareful hr
      exact ⟨by omega, by omega⟩

end Arrows

/-- Expressions one behind the other. -/
theorem laid_exprs {es : List Expr} (h : ∀ e ∈ es, ExprLaid g s e)
    (hapart : (es.map Expr.span).Pairwise Span.Apart) :
    Laid g (es.map Expr.span) (traceExprs s es) [] := by
  rw [traceExprs_eq]
  rw [List.map_eq_flatMap] at hapart ⊢
  exact (Laid.flatMap (fun e he => (h e he).laid [] false) hapart).forget

/-- Only the first part of a compound expression may start where that does. -/
theorem laid_compound {span : Span} {form : Form} {parts : List Expr}
    (hparts : ∀ e ∈ parts, ExprLaid g s e)
    (hheld : ∀ e ∈ parts, span.lo ≤ e.span.lo ∧ e.span.hi ≤ span.hi)
    (htail : ∀ e ∈ parts.tail, span.lo < e.span.lo)
    (hapart : (parts.map Expr.span).Pairwise Span.Apart) :
    ExprLaid g s (.compound span form parts) := by
  refine .of_ranges rfl ?_ ?_
  · intro chain settled
    rw [traceExpr, leaves]
    · refine (laid_exprs hparts hapart).widen ?_
      intro a ha
      obtain ⟨e, he, rfl⟩ := List.mem_map.mp ha
      exact hheld e he
    all_goals simp
  · intro hcareful chain settled r hr
    rw [traceExpr, traceExprs_eq] at hr
    rw [Expr.span_compound]
    obtain ⟨event, hevent, hrange⟩ := List.mem_flatMap.mp hr
    obtain ⟨e, he, hevent⟩ := List.mem_flatMap.mp hevent
    have hpart : r ∈ rangesOf (traceExpr s [] false e) :=
      List.mem_flatMap.mpr ⟨event, hevent, hrange⟩
    have := (hparts e he).range_held hcareful hpart
    have := hheld e he
    refine ⟨by omega, fun hstart => ?_⟩
    cases parts with
    | nil => simp at he
    | cons first rest =>
      rcases List.mem_cons.mp he with rfl | he
      · exact ((hparts e (by simp)).starts hcareful _ r hpart (by omega)).of_head
          (by rw [headCallee?, headCalleeOfFirst?]) (by rw [Expr.span_compound]; omega)
      · have := htail e he
        omega

end Expressions

end RefSugar.Walk

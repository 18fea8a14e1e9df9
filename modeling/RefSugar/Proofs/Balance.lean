import RefSugar.Proofs.Agreement
import RefSugar.Proofs.Chains
import RefSugar.Proofs.Walkers

/-! Walks are balanced. Whatever node a walker comes upon with no chain, behind it the same frames are
open, no chain is left, and what was known before is still known: frames, references, names to unwrap,
marks and edits are added, and none is taken back or changed. The name at the head of an expression
takes the spans of the links from the expression down to it, and a reference never takes a span of an
expression that it does not head. -/
namespace RefSugar

namespace Walk

open Syntax

/-- A later run, of the same unit, to which things have been added. -/
structure Adds (r r' : Run) : Prop extends Extends r r' where
  unwrapped : r.unwrapped <+: r'.unwrapped
  marked : r.marked <+: r'.marked
  called : r.called <+: r'.called
  edits : r.emitter.edits.edits <+: r'.emitter.edits.edits
  base : r'.emitter.base = r.emitter.base
  origin : r'.emitter.origin = r.emitter.origin

section Adding

variable {source : List Char} {r r' r'' : Run}

theorem Adds.refl (r : Run) : Adds r r :=
  { Extends.refl r with
    unwrapped := List.prefix_refl _, marked := List.prefix_refl _, called := List.prefix_refl _
    edits := List.prefix_refl _, base := rfl, origin := rfl }

theorem Adds.trans (h : Adds r r') (h' : Adds r' r'') : Adds r r'' :=
  { h.toExtends.trans h'.toExtends with
    unwrapped := h.unwrapped.trans h'.unwrapped
    marked := h.marked.trans h'.marked
    called := h.called.trans h'.called
    edits := h.edits.trans h'.edits
    base := h'.base.trans h.base
    origin := h'.origin.trans h.origin }

/-- Wherever the unit stands, an edit is put behind those before it, or not issued. -/
theorem prefix_emit (em : Emitter) (e : Edit) : em.edits.edits <+: (em.emit e).edits.edits :=
  ⟨_, (Edit.issue_edits em.edits _).symm⟩

theorem prefix_foldl_emit (em : Emitter) (edits : List Edit) :
    em.edits.edits <+: (edits.foldl Emitter.emit em).edits.edits := by
  induction edits generalizing em with
  | nil => exact List.prefix_refl _
  | cons e edits ih => exact (prefix_emit em e).trans (ih (em.emit e))

/-- A step takes nothing back. -/
theorem step_adds (r : Run) (ev : Event) : Adds r (r.step source ev) := by
  -- frames, names and references are dealt with by `Extends`, so few events add anything else
  have hsame := Adds.refl r
  have hextends : Extends r (r.step source ev) := step_extends r ev
  cases ev with
  | edit e => exact { hsame with toExtends := hextends, edits := prefix_emit r.emitter e }
  | mark span => exact { hsame with toExtends := hextends, marked := List.prefix_append _ _ }
  | unwrap place name => exact { hsame with toExtends := hextends, unwrapped := List.prefix_append _ _ }
  | unpack place plan stop =>
    rw [Run.step, Run.unpack_eq] at hextends ⊢
    exact {
      toExtends := hextends
      unwrapped := List.prefix_append _ _
      marked := List.prefix_refl _
      called := List.prefix_append _ _
      edits := prefix_foldl_emit r.emitter _
      base := rfl
      origin := rfl }
  | enter kind | leave | known place name | mention m => exact { hsame with toExtends := hextends }

theorem steps_adds (r : Run) (events : List Event) : Adds r (r.steps source events) := by
  induction events generalizing r with
  | nil => exact .refl r
  | cons ev events ih => exact (step_adds r ev).trans (ih _)

/-- What is new among the references was mentioned. -/
theorem steps_references (source : List Char) (r : Run) (events : List Event) : ∃ new,
    (r.steps source events).references = r.references ++ new ∧
      ∀ ref ∈ new, ∃ m, .mention m ∈ events ∧ Refers m ref := by
  induction events generalizing r with
  | nil => exact ⟨[], by simp [Run.steps], by simp⟩
  | cons ev events ih =>
    obtain ⟨new, hnew, hrefers⟩ := ih (r.step source ev)
    have hlater : ∀ ref ∈ new, ∃ m, .mention m ∈ ev :: events ∧ Refers m ref := by
      intro ref href
      obtain ⟨m, hm, h⟩ := hrefers ref href
      exact ⟨m, List.mem_cons_of_mem _ hm, h⟩
    by_cases hmention : ∃ m, ev = .mention m
    · obtain ⟨m, rfl⟩ := hmention
      refine ⟨recorded r m :: new, ?_, List.forall_mem_cons.mpr ⟨?_, hlater⟩⟩
      · rw [steps_cons, hnew]
        exact List.append_assoc ..
      · exact ⟨m, List.mem_cons_self .., rfl, rfl, rfl, rfl⟩
    · refine ⟨new, ?_, hlater⟩
      rw [steps_cons, hnew, step_references_of_ne r fun m hm => hmention ⟨m, hm⟩]

/-- The first name that is mentioned is the first to be recorded. -/
theorem steps_references_first (source : List Char) (r : Run) {events before after : List Event}
    {m : Mention} (hevents : events = before ++ .mention m :: after)
    (hbefore : ∀ m', .mention m' ∉ before) : ∃ ref rest,
      (r.steps source events).references = r.references ++ ref :: rest ∧ Refers m ref := by
  -- nothing is recorded before the mention, and what is recorded behind it comes later
  obtain ⟨early, hearly, hrefers⟩ := steps_references source r before
  obtain rfl : early = [] := by
    refine List.eq_nil_iff_forall_not_mem.mpr fun ref href => ?_
    obtain ⟨m', hm', _⟩ := hrefers ref href
    exact hbefore m' hm'
  obtain ⟨rest, hrest, _⟩ := steps_references source
    ((r.steps source before).step source (.mention m)) after
  refine ⟨recorded (r.steps source before) m, rest, ?_, rfl, rfl, rfl, rfl⟩
  rw [hevents, steps_append, steps_cons, hrest]
  simp [Run.step, Run.refer, recorded, hearly]

end Adding

section Chains

variable {s : Setting} {ps : List Piece} {m : Mention}

theorem mention_not_mem_own {v : Visit} : .mention m ∉ v.own s := fun h => by
  simpa [Event.names] using (own_wraps v).names _ h

/-- An expression mentions its head first, with the links down to it behind the chain. -/
theorem traceExpr_eq_of_head {e : Expr} {id : Ident} (h : e.head? = some id) (chain : List Span)
    (settled : Bool) : ∃ before after, traceExpr s chain settled e =
      before ++ mention s { id, chain := chain ++ e.links } :: after ∧
        ∀ m, .mention m ∉ before := by
  fun_induction Expr.head? e generalizing chain settled with
  | case1 id' =>
    cases h
    exact ⟨[], [], by simp [traceExpr, Expr.links], by simp⟩
  | case2 span link inner ih | case5 span kind inner ih =>
    obtain ⟨before, after, heq, hbefore⟩ := ih h (chain ++ [span]) _
    exact ⟨before, after, by simpa [traceExpr, Expr.links] using heq, hbefore⟩
  | case3 span link inner key ih =>
    obtain ⟨before, after, heq, hbefore⟩ := ih h (chain ++ [span]) false
    exact ⟨before, after ++ traceExpr s [] false key, by simp [traceExpr, Expr.links, heq], hbefore⟩
  | case4 span link callee args ih =>
    -- what a sigil on the callee gives rise to comes first, and mentions no name
    obtain ⟨before, after, heq, hbefore⟩ := ih h (chain ++ [span]) false
    refine ⟨callEvents s settled callee args ++ before, after ++ traceItems s args,
      by simp [traceExpr, Expr.links, heq], fun m hm => ?_⟩
    rcases List.mem_append.mp hm with hm | hm
    · exact mention_not_mem_own (v := .expr chain settled (.call span link callee args)) hm
    · exact hbefore m hm
  | case6 => cases h

/-- The chain was started by an expression that was met with none: the chain, and then the links that
are still to come, are the links of that expression. -/
def Started (ps : List Piece) (chain : List Span) (e : Expr) : Prop :=
  ∃ s settled whole, Visits ps s (.expr [] settled whole) ∧ whole.head? = e.head? ∧
    whole.links = chain ++ e.links

/-- Every chain that is met was started by an expression of the pieces. -/
theorem Visits.started {chain : List Span} {settled : Bool} {e : Expr}
    (hroot : ∀ s chain settled e, .part s (.expr chain settled e) ∈ ps → chain = [])
    (h : Visits ps s (.expr chain settled e)) : Started ps chain e := by
  refine Visits.downward (motive := fun _ v => ∀ chain settled e, v = .expr chain settled e →
    Started ps chain e) ?_ ?_ h chain settled e rfl
  · rintro s v hv chain settled e rfl
    obtain rfl := hroot s chain settled e hv
    exact ⟨s, settled, e, .here hv, rfl, rfl⟩
  · rintro s v hvisits ih s' v' hv chain settled e rfl
    rcases chain_of_part hv with rfl | ⟨chain', settled', e', rfl, hhead, hlinks, rfl⟩
    · exact ⟨s', settled, e, hvisits.part hv, rfl, rfl⟩
    · -- one link further down, the chain has taken the link of the expression around
      obtain ⟨t, settled'', whole, hwhole, hhead', hlinks'⟩ := ih chain' settled' e' rfl
      exact ⟨t, settled'', whole, hwhole, hhead'.trans hhead, by simp [hlinks', hlinks]⟩

/-- A name is mentioned with no chain, or at the head of an expression and with all links down to
it. -/
theorem chain_of_mention
    (hroot : ∀ s chain settled e, .part s (.expr chain settled e) ∈ ps → chain = [])
    (hparts : ∀ ev, .event ev ∉ ps) (h : .mention m ∈ expand ps) :
    m.chain = [] ∨ ∃ t settled e, Visits ps t (.expr [] settled e) ∧ e.head? = some m.id ∧
      m.chain = e.links := by
  rcases (mem_expand_iff rfl).mp h with h | ⟨t, v, hv, h⟩
  · exact absurd h (hparts _)
  · rw [pieces_eq, List.mem_append, event_mem_events] at h
    rcases mention_cases (h.resolve_left mention_not_mem_own) with
      ⟨chain, settled, id, rfl, rfl⟩ | ⟨_, _, _, _, _, rfl⟩ | ⟨_, _, rfl⟩ | ⟨_, _, rfl⟩ |
      ⟨_, _, _, rfl⟩
    · obtain ⟨t, settled', whole, hwhole, hhead, hlinks⟩ := hv.started hroot
      exact .inr ⟨t, settled', whole, hwhole, hhead, by simp [hlinks, Expr.links]⟩
    all_goals exact .inl rfl

/-- The visit is one of the node or of what stands in it, and is handed no chain. -/
structure Visit.StartsIn (v : Visit) (n : Node) : Prop where
  reaches : Node.Reaches Node.children n v.node
  unchained : ∀ chain settled e, v = .expr chain settled e → chain = []

theorem Visit.StartsIn.expr {n : Node} {settled : Bool} {e : Expr}
    (h : Node.Reaches Node.children n (.expr e)) : (Visit.expr [] settled e).StartsIn n where
  reaches := h
  unchained := by
    rintro _ _ _ ⟨⟩
    rfl

theorem Visits.reaches {n : Node} (hroot : ∀ s v, .part s v ∈ ps → Node.Reaches Node.children n v.node)
    {v : Visit} (h : Visits ps s v) : Node.Reaches Node.children n v.node := by
  refine Visits.downward (motive := fun _ v => Node.Reaches Node.children n v.node) hroot ?_ h
  intro s v _ hreach s' v' hv
  obtain ⟨_, c, hc, hbelow⟩ := v.pieces_inside s s' v' hv
  exact hreach.trans (.step hc hbelow)

end Chains

namespace Site

def node : Site → Node
  | expr _ e => .expr e
  | item i => .item i
  | property p => .property p
  | key k => .key k
  | pattern p | target p => .pattern p
  | field f | targetField f => .field f
  | param p => .param p
  | func f => .func f
  | cls c => .cls c
  | member m => .member m
  | attr a => .attr a
  | stmt st => .stmt st
  | declarator _ d | resource d => .declarator d

def pieces (s : Setting) : Site → List Piece
  | expr settled e => [.part s (.expr [] settled e)]
  | item i => itemPieces s [i]
  | property p => [.part s (.property p)]
  | key k => keyPieces s k
  | pattern p => [.part s (.pattern p)]
  | target p => [.part s (.target p)]
  | field f => [.part s (.field f)]
  | targetField f => [.part s (.targetField f)]
  | param p => values s p.decorators ++ patterns s [p.pattern]
  | func f => [.part s (.func f)]
  | cls c => [.part s (.cls c)]
  | member m => [.part s (.member m)]
  | attr a => [.part s (.attr a)]
  | stmt st => [.part s (.stmt st)]
  | declarator place d => [.part s (.declarator place d)]
  | resource d => resourceOuter s d

variable {s s' : Setting} {site : Site} {v : Visit}

theorem expand_pieces (s : Setting) (site : Site) : expand (site.pieces s) = site.trace s := by
  cases site with
  | item i => exact expand_itemPieces s [i]
  | key k => exact expand_keyPieces s k
  | param p =>
    cases p
    simp [pieces, trace, traceParams, tracePatterns, Param.decorators, Param.pattern]
  | resource d =>
    cases d
    simp [pieces, trace, resourceOuter, traceResources, tracePatterns, traceExprs_option]
  | _ => exact List.append_nil _

theorem event_not_mem_pieces {ev : Event} : .event ev ∉ site.pieces s := by
  cases site with
  | resource d => cases d; simp [pieces, resourceOuter]
  | _ => simp [pieces]

/-- The parts of a site start chains of their own. -/
theorem startsIn_of_mem_pieces (h : .part s' v ∈ site.pieces s) : v.StartsIn site.node := by
  have hvalues {es : List Expr} (hes : ∀ e ∈ es, .expr e ∈ site.node.children)
      (h : .part s' v ∈ values s es) : v.StartsIn site.node := by
    obtain ⟨_, e, he, rfl⟩ := part_mem_values.mp h
    exact .expr (.step (hes e he) (.refl _))
  have hpattern {p : Pattern} (hp : .pattern p ∈ site.node.children)
      (h : .part s' v ∈ patterns s [p]) : v.StartsIn site.node := by
    obtain ⟨_, rfl⟩ : s' = s ∧ v = .pattern p := by simpa [patterns] using h
    exact ⟨.step hp (.refl _), by simp⟩
  cases site with
  | item i => exact hvalues (by simp [node]) h
  | key k =>
    cases k with
    | computed e => exact hvalues (by simp [node]) h
    | _ => cases h
  | param p =>
    cases p
    rcases List.mem_append.mp h with h | h
    · exact hvalues (by simp [node, Param.decorators]) h
    · exact hpattern (by simp [node, Param.pattern]) h
  | resource d =>
    cases d
    rcases List.mem_append.mp h with h | h
    · exact hpattern (by simp [node]) h
    · exact hvalues (by simp [node]) h
  | expr settled e =>
    obtain ⟨_, rfl⟩ : s' = s ∧ v = .expr [] settled e := by simpa [pieces] using h
    exact .expr (.refl _)
  | _ =>
    -- the other kinds of nodes are visited as they are
    obtain ⟨_, rfl⟩ : s' = s ∧ v = _ := by simpa [pieces] using h
    exact ⟨.refl _, by simp⟩

theorem bracketed (s : Setting) (site : Site) : Bracketed (site.trace s) := by
  rw [← expand_pieces]
  exact bracketed_expand (fun ev h => absurd h event_not_mem_pieces) fun s' v _ => bracketed_trace s' v

/-- The expression stands in the site, and a walk comes to it with no chain. -/
def Holds (s : Setting) (site : Site) (e : Expr) : Prop :=
  Node.Reaches Node.children site.node (.expr e) ∧
    ∃ s' settled, Visits (site.pieces s) s' (.expr [] settled e)

/-- A name is mentioned with no chain, or at the head of an expression of the site and with all links
down to it. -/
theorem chain_of_mention {m : Mention} (h : .mention m ∈ site.trace s) : m.chain = [] ∨
    ∃ e, site.Holds s e ∧ e.head? = some m.id ∧ m.chain = e.links := by
  rw [← expand_pieces] at h
  rcases Walk.chain_of_mention (fun _ _ _ _ hv => (startsIn_of_mem_pieces hv).unchained _ _ _ rfl)
    (fun _ => event_not_mem_pieces) h with hnone | ⟨t, settled, e, hv, hhead, hlinks⟩
  · exact .inl hnone
  · have hreach := hv.reaches fun _ _ hv => (startsIn_of_mem_pieces hv).reaches
    exact .inr ⟨e, ⟨hreach, t, settled, hv⟩, hhead, hlinks⟩

end Site

namespace Walker

def surroundings (s : Setting) (w : Walker) : Setting :=
  { s with isExempt := decide (0 < w.exemptDepth) }

structure Balanced (s : Setting) (site : Site) (w w' : Walker) : Prop where
  /-- The same frames are open, -/
  stack : w'.run.scopes.stack = w.run.scopes.stack
  /-- the same attributes around are left alone, -/
  exemptDepth : w'.exemptDepth = w.exemptDepth
  /-- and no chain is left. -/
  chain : w'.chain = []
  /-- The events of the node have been carried out, -/
  run : w'.run = w.run.steps s.source (site.trace (w.surroundings s))
  /-- by which things were added and nothing was lost. -/
  adds : Adds w.run w'.run
  /-- What is new among the references has no chain or heads an expression of the site, and then its
  chain are the links of that expression. -/
  chains : ∃ new, w'.run.references = w.run.references ++ new ∧ ∀ ref ∈ new, ref.chain = [] ∨
    ∃ e, site.Holds (w.surroundings s) e ∧ e.head? = some ⟨ref.name, ref.span⟩ ∧ ref.chain = e.links
  /-- The first reference in an expression with a head is the head, with the links of the
  expression. -/
  head : ∀ settled e id, site = .expr settled e → e.head? = some id → ∃ ref rest,
    w'.run.references = w.run.references ++ ref :: rest ∧ ref.name = id.name ∧ ref.span = id.span ∧
      ref.chain = e.links

/-- Walks are balanced: whatever node a walker with no chain comes upon, behind it the walker has the
same surroundings and has only added to what it knew. -/
theorem visit_balanced (s : Setting) (w : Walker) (hchain : w.chain = []) (site : Site) :
    Balanced s site w (w.visit s site) := by
  -- a visit makes events, so that all else is said about events
  have hvisit : w.visit s site = w.clear.act s.source (site.trace (w.surroundings s)) :=
    visit_makes s site w hchain
  have hrun : (w.visit s site).run = w.run.steps s.source (site.trace (w.surroundings s)) :=
    congrArg Walker.run hvisit
  refine ⟨?_, by rw [hvisit]; rfl, by rw [hvisit]; rfl, hrun, ?_, ?_, ?_⟩
  · rw [hrun]
    exact ((site.bracketed (w.surroundings s)).stack w.run).1
  · rw [hrun]
    exact steps_adds w.run _
  · obtain ⟨new, hnew, hrefers⟩ := steps_references s.source w.run (site.trace (w.surroundings s))
    refine ⟨new, hrun ▸ hnew, fun ref href => ?_⟩
    obtain ⟨m, hm, hname, hspan, hlinks, _⟩ := hrefers ref href
    rw [hname, hspan, hlinks]
    exact Site.chain_of_mention hm
  · rintro settled e id rfl hhead
    obtain ⟨before, after, htrace, hbefore⟩ :=
      traceExpr_eq_of_head (s := w.surroundings s) hhead [] settled
    obtain ⟨ref, rest, hfirst, hname, hspan, hlinks, _⟩ :=
      steps_references_first s.source w.run htrace hbefore
    exact ⟨ref, rest, hrun ▸ hfirst, hname, hspan, hlinks⟩

/-- A walker in a function, and in an attribute that is left alone, comes upon `a.b(c.d)`. It records
`a` with the spans of the call and of its callee, and is back in the function. -/
theorem visit_balanced_call :
    let a : Ident := ⟨"a", ⟨0, 1⟩⟩
    let argument : Expr := .field ⟨4, 7⟩ .plain (.name ⟨"c", ⟨4, 5⟩⟩)
    let e : Expr := .call ⟨0, 8⟩ .plain (.field ⟨0, 3⟩ .plain (.name a)) [.one argument]
    let w : Walker := { run := (Run.start 0 .program {}).steps [] [.enter .function], exemptDepth := 1 }
    let w' := w.visit (setting {} "a.b(c.d)".toList) (.expr false e)
    w.chain = [] ∧ w'.run.scopes.stack = [1, 0] ∧ w'.exemptDepth = 1 ∧ w'.chain = [] ∧
      ∃ ref rest, w'.run.references = ref :: rest ∧ ref.name = "a" ∧
        ref.chain = [⟨0, 8⟩, ⟨0, 3⟩] := by
  intro a argument e w w'
  have hbalanced : Balanced _ (.expr false e) w w' := visit_balanced _ w rfl _
  obtain ⟨ref, rest, hreferences, hname, _, hlinks⟩ := hbalanced.head false e a rfl rfl
  exact ⟨rfl, hbalanced.stack, hbalanced.exemptDepth, hbalanced.chain, ref, rest, hreferences, hname,
    hlinks⟩

end Walker

end Walk

end RefSugar

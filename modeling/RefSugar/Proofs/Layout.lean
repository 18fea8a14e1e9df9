import RefSugar.Proofs.Nesting
import RefSugar.Walk.Trace

/-! Where the events of a walk lie in the text. Events are laid over spans that are apart from each
other; what is said here of one layout holds of every walk over a tree whose spans are nested. -/
namespace RefSugar

open Syntax

def Syntax.Span.shift (base : Nat) (a : Span) : Span :=
  ⟨base + a.lo, base + a.hi⟩

@[simp] def Edit.ranges : Edit → List Span
  | .remove start stop | .overwrite start stop _ => [⟨start, stop⟩]
  | .insertBefore _ _ | .insertAfter _ _ => []

@[simp] def Edit.points : Edit → List Nat
  | .insertBefore pos _ | .insertAfter pos _ => [pos]
  | .remove _ _ | .overwrite _ _ _ => []

namespace Walk

namespace Event

def ranges : Event → List Span
  | .edit e => e.ranges
  | .unpack _ plan _ => [plan.span]
  | _ => []

/-- Where the event may insert something, now or when references are resolved. -/
def points : Event → List Nat
  | .edit e => e.points
  | .mention m => [m.id.span.lo, m.id.span.hi]
  | .unpack _ _ stop => [stop]
  | _ => []

def names : Event → List Span
  | .mention m => [m.id.span]
  | _ => []

/-- What nothing else reaches into: references, and patterns that are overwritten. -/
def solids : Event → List Span
  | .mention m => [m.id.span]
  | .unpack _ plan _ => [plan.span]
  | _ => []

def isQuiet : Event → Bool
  | .mark _ | .enter _ | .leave | .known _ _ | .unwrap _ _ => true
  | .edit _ | .mention _ | .unpack _ _ _ => false

end Event

def rangesOf (events : List Event) : List Span :=
  events.flatMap Event.ranges

def pointsOf (events : List Event) : List Nat :=
  events.flatMap Event.points

def namesOf (events : List Event) : List Span :=
  events.flatMap Event.names

def solidsOf (events : List Event) : List Span :=
  events.flatMap Event.solids

def Leaf.points (leaf : Leaf) : List Nat :=
  [leaf.span.lo, leaf.span.hi]

def AllApart (S S' : List Span) : Prop :=
  ∀ a ∈ S, ∀ b ∈ S', a.Apart b

/-- What events are laid on. `ok` are the offsets at which the text may be cut. Where care is taken,
nothing is taken away twice, but for the bytes at `twice`. -/
structure Ground where
  careful : Prop
  twice : Nat → Prop
  ok : Nat → Prop

/-- Events laid over spans. The leaves are those that may be wrapped there. -/
inductive Laid (g : Ground) : List Span → List Event → List Leaf → Prop
  | nil : Laid g [] [] []
  | quiet {event : Event} (h : event.isQuiet = true) : Laid g [] [event] []
  | mention {m : Mention} (hfilled : m.id.span.lo < m.id.span.hi) (hlo : g.ok m.id.span.lo)
      (hhi : g.ok m.id.span.hi) : Laid g [m.id.span] [.mention m] [.shorthand m.id]
  | append {S S' : List Span} {E E' : List Event} {L L' : List Leaf} (h : Laid g S E L)
      (h' : Laid g S' E' L') (hapart : AllApart S S') :
      Laid g (S ++ S') (E ++ E') (L ++ L')
  | widen {S : List Span} {E : List Event} {L : List Leaf} {outer : Span}
      (h : Laid g S E L) (hholds : ∀ a ∈ S, outer.lo ≤ a.lo ∧ a.hi ≤ outer.hi) :
      Laid g [outer] E L
  | whole {span : Span} {E : List Event} {L : List Leaf} (h : Laid g [span] E L)
      (hle : span.lo ≤ span.hi) (hlo : g.ok span.lo) (hhi : g.ok span.hi) : Laid g [span] E [.whole span]
  | forget {S : List Span} {E : List Event} {L : List Leaf} (h : Laid g S E L) :
      Laid g S E []
  /-- The leaves are wrapped. -/
  | wrapped {S : List Span} {E : List Event} {L : List Leaf} (h : Laid g S E L)
      (wrapFn : String) : Laid g S (wrap wrapFn L ++ E) L
  /-- One byte is taken away. -/
  | strip {S : List Span} {E : List Event} {L : List Leaf} {span : Span} {pos : Nat}
      (h : Laid g S E L) (hspan : span ∈ S) (hlo : span.lo ≤ pos) (hhi : pos < span.hi)
      (hok : g.ok pos) (hok' : g.ok (pos + 1))
      (honce : g.careful → ∀ r ∈ rangesOf E,
        (r.hi ≤ pos ∨ pos + 1 ≤ r.lo) ∨ g.twice pos ∧ r.lo = pos) :
      Laid g S (.edit (.remove pos (pos + 1)) :: E) L
  /-- A name is taken away. -/
  | erase {m : Mention} (hfilled : m.id.span.lo < m.id.span.hi) (hlo : g.ok m.id.span.lo)
      (hhi : g.ok m.id.span.hi) :
      Laid g [m.id.span] [.edit (.remove m.id.span.lo m.id.span.hi), .mention m] []
  | unpack {place : Place} {plan : Unpack.Plan} {stop : Nat}
      (hfilled : plan.span.lo < plan.span.hi) (hlo : g.ok plan.span.lo) (hhi : g.ok plan.span.hi)
      (hbehind : plan.span.hi ≤ stop) (hstop : g.ok stop) :
      Laid g [plan.span, ⟨stop, stop⟩] [.unpack place plan stop] []
  | careless {S : List Span} {E : List Event} {L : List Leaf} {start stop : Nat}
      (hcareless : ¬ g.careful) (h : Laid g S E L) :
      Laid g S (.edit (.remove start stop) :: E) L

@[simp] theorem rangesOf_nil : rangesOf [] = [] := rfl

@[simp] theorem rangesOf_cons (event : Event) (events : List Event) :
    rangesOf (event :: events) = event.ranges ++ rangesOf events := rfl

@[simp] theorem rangesOf_append (E E' : List Event) :
    rangesOf (E ++ E') = rangesOf E ++ rangesOf E' :=
  List.flatMap_append

@[simp] theorem pointsOf_nil : pointsOf [] = [] := rfl

@[simp] theorem pointsOf_cons (event : Event) (events : List Event) :
    pointsOf (event :: events) = event.points ++ pointsOf events := rfl

@[simp] theorem pointsOf_append (E E' : List Event) :
    pointsOf (E ++ E') = pointsOf E ++ pointsOf E' :=
  List.flatMap_append

@[simp] theorem namesOf_nil : namesOf [] = [] := rfl

@[simp] theorem namesOf_cons (event : Event) (events : List Event) :
    namesOf (event :: events) = event.names ++ namesOf events := rfl

@[simp] theorem solidsOf_nil : solidsOf [] = [] := rfl

@[simp] theorem solidsOf_cons (event : Event) (events : List Event) :
    solidsOf (event :: events) = event.solids ++ solidsOf events := rfl

@[simp] theorem solidsOf_append (E E' : List Event) :
    solidsOf (E ++ E') = solidsOf E ++ solidsOf E' :=
  List.flatMap_append

theorem namesOf_sublist (E : List Event) : (namesOf E).Sublist (solidsOf E) := by
  induction E with
  | nil => exact .slnil
  | cons event E ih =>
    refine List.Sublist.append ?_ ih
    cases event <;> simp [Event.names, Event.solids]

namespace Event

variable {event : Event}

theorem ranges_of_quiet (h : event.isQuiet = true) : event.ranges = [] := by
  cases event <;> simp_all [isQuiet, ranges]

theorem points_of_quiet (h : event.isQuiet = true) : event.points = [] := by
  cases event <;> simp_all [isQuiet, points]

theorem solids_of_quiet (h : event.isQuiet = true) : event.solids = [] := by
  cases event <;> simp_all [isQuiet, solids]

end Event

/-- Wrapping takes nothing away and refers to nothing. -/
@[simp] theorem rangesOf_wrap (wrapFn : String) (L : List Leaf) : rangesOf (wrap wrapFn L) = [] := by
  induction L with
  | nil => rfl
  | cons leaf L ih =>
    cases leaf <;> simpa [wrap, Leaf.edits, Event.ranges] using ih

@[simp] theorem solidsOf_wrap (wrapFn : String) (L : List Leaf) : solidsOf (wrap wrapFn L) = [] := by
  induction L with
  | nil => rfl
  | cons leaf L ih =>
    cases leaf <;> simpa [wrap, Leaf.edits, Event.solids] using ih

@[simp] theorem pointsOf_wrap (wrapFn : String) (L : List Leaf) :
    pointsOf (wrap wrapFn L) = L.flatMap Leaf.points := by
  induction L with
  | nil => rfl
  | cons leaf L ih =>
    cases leaf <;> simpa [wrap, Leaf.edits, Event.points, Leaf.points, Leaf.span] using ih

/-- The ranges are apart, or both start at a byte that may be taken away twice, and one of them is
that byte. -/
def Beside (twice : Nat → Prop) (a b : Span) : Prop :=
  a.Apart b ∨ twice a.lo ∧ b.lo = a.lo ∧ (a.hi = a.lo + 1 ∨ b.hi = b.lo + 1)

/-- Ranges and points that edits can be made of: they lie inside the spans, the ranges are beside each
other, and no point lies in the middle of a range. -/
structure Tidy (twice ok : Nat → Prop) (S R : List Span) (P : List Nat) : Prop where
  range_held : ∀ r ∈ R, ∃ a ∈ S, a.lo ≤ r.lo ∧ r.hi ≤ a.hi
  range_filled : ∀ r ∈ R, r.lo < r.hi
  range_ok : ∀ r ∈ R, ok r.lo ∧ ok r.hi
  range_apart : R.Pairwise (Beside twice)
  point_held : ∀ p ∈ P, ∃ a ∈ S, a.lo ≤ p ∧ p ≤ a.hi
  point_ok : ∀ p ∈ P, ok p
  point_clear : ∀ p ∈ P, ∀ r ∈ R, p ≤ r.lo ∨ r.hi ≤ p

namespace Tidy

variable {twice ok : Nat → Prop} {S S' R R' : List Span} {P P' : List Nat}

/-- Where nothing may be taken away twice, the ranges are apart. -/
theorem apart (h : Tidy twice ok S R P) (honce : ∀ p, ¬ twice p) : R.Pairwise Span.Apart :=
  h.range_apart.imp fun hab => hab.resolve_right fun htwice => honce _ htwice.1

theorem of_points (h : Tidy twice ok S R P) (hsub : P' ⊆ P) : Tidy twice ok S R P' where
  range_held := h.range_held
  range_filled := h.range_filled
  range_ok := h.range_ok
  range_apart := h.range_apart
  point_held := fun p hp => h.point_held p (hsub hp)
  point_ok := fun p hp => h.point_ok p (hsub hp)
  point_clear := fun p hp => h.point_clear p (hsub hp)

/-- What is tidy inside of spans is tidy inside of one around them. -/
theorem widen {outer : Span} (h : Tidy twice ok S R P)
    (hholds : ∀ a ∈ S, outer.lo ≤ a.lo ∧ a.hi ≤ outer.hi) : Tidy twice ok [outer] R P where
  range_held := by
    intro r hr
    obtain ⟨a, ha, hlo, hhi⟩ := h.range_held r hr
    have := hholds a ha
    exact ⟨outer, by simp, by omega, by omega⟩
  range_filled := h.range_filled
  range_ok := h.range_ok
  range_apart := h.range_apart
  point_held := by
    intro p hp
    obtain ⟨a, ha, hlo, hhi⟩ := h.point_held p hp
    have := hholds a ha
    exact ⟨outer, by simp, by omega, by omega⟩
  point_ok := h.point_ok
  point_clear := h.point_clear

/-- What lies in one span keeps clear of what lies in another. -/
theorem clear_of_apart (h : Tidy twice ok S R P) (h' : Tidy twice ok S' R' P')
    (hapart : AllApart S S') :
    (∀ r ∈ R, ∀ r' ∈ R', r.Apart r') ∧ (∀ p ∈ P, ∀ r' ∈ R', p ≤ r'.lo ∨ r'.hi ≤ p) ∧
      ∀ p' ∈ P', ∀ r ∈ R, p' ≤ r.lo ∨ r.hi ≤ p' := by
  refine ⟨?_, ?_, ?_⟩
  · intro r hr r' hr'
    obtain ⟨a, ha, hlo, hhi⟩ := h.range_held r hr
    obtain ⟨b, hb, hlo', hhi'⟩ := h'.range_held r' hr'
    rcases hapart a ha b hb with hab | hab
    · exact .inl (by omega)
    · exact .inr (by omega)
  · intro p hp r' hr'
    obtain ⟨a, ha, hlo, hhi⟩ := h.point_held p hp
    obtain ⟨b, hb, hlo', hhi'⟩ := h'.range_held r' hr'
    rcases hapart a ha b hb with hab | hab
    · exact .inl (by omega)
    · exact .inr (by omega)
  · intro p' hp' r hr
    obtain ⟨a, ha, hlo, hhi⟩ := h.range_held r hr
    obtain ⟨b, hb, hlo', hhi'⟩ := h'.point_held p' hp'
    rcases hapart a ha b hb with hab | hab
    · exact .inr (by omega)
    · exact .inl (by omega)

/-- What lies in spans apart is tidy together. -/
theorem append (h : Tidy twice ok S R P) (h' : Tidy twice ok S' R' P') (hapart : AllApart S S') :
    Tidy twice ok (S ++ S') (R ++ R') (P ++ P') := by
  obtain ⟨hranges, hpoints, hpoints'⟩ := h.clear_of_apart h' hapart
  refine ⟨?_, ?_, ?_, ?_, ?_, ?_, ?_⟩
  · intro r hr
    rcases List.mem_append.mp hr with hr | hr
    · obtain ⟨a, ha, hheld⟩ := h.range_held r hr
      exact ⟨a, by simp [ha], hheld⟩
    · obtain ⟨a, ha, hheld⟩ := h'.range_held r hr
      exact ⟨a, by simp [ha], hheld⟩
  · intro r hr
    exact (List.mem_append.mp hr).elim (h.range_filled r) (h'.range_filled r)
  · intro r hr
    exact (List.mem_append.mp hr).elim (h.range_ok r) (h'.range_ok r)
  · exact List.pairwise_append.mpr ⟨h.range_apart, h'.range_apart,
      fun r hr r' hr' => .inl (hranges r hr r' hr')⟩
  · intro p hp
    rcases List.mem_append.mp hp with hp | hp
    · obtain ⟨a, ha, hheld⟩ := h.point_held p hp
      exact ⟨a, by simp [ha], hheld⟩
    · obtain ⟨a, ha, hheld⟩ := h'.point_held p hp
      exact ⟨a, by simp [ha], hheld⟩
  · intro p hp
    exact (List.mem_append.mp hp).elim (h.point_ok p) (h'.point_ok p)
  · intro p hp r hr
    rcases List.mem_append.mp hp with hp | hp <;> rcases List.mem_append.mp hr with hr | hr
    · exact h.point_clear p hp r hr
    · exact hpoints p hp r hr
    · exact hpoints' p hp r hr
    · exact h'.point_clear p hp r hr

/-- The ends of the one span that holds everything are points as well. -/
theorem ends {span : Span} (h : Tidy twice ok [span] R P) (hle : span.lo ≤ span.hi) (hlo : ok span.lo)
    (hhi : ok span.hi) : Tidy twice ok [span] R (P ++ [span.lo, span.hi]) where
  range_held := h.range_held
  range_filled := h.range_filled
  range_ok := h.range_ok
  range_apart := h.range_apart
  point_held := by
    intro p hp
    rcases List.mem_append.mp hp with hp | hp
    · exact h.point_held p hp
    · exact ⟨span, by simp, by grind⟩
  point_ok := by
    intro p hp
    rcases List.mem_append.mp hp with hp | hp
    · exact h.point_ok p hp
    · grind
  point_clear := by
    intro p hp r hr
    rcases List.mem_append.mp hp with hp | hp
    · exact h.point_clear p hp r hr
    · obtain ⟨a, ha, hlo, hhi⟩ := h.range_held r hr
      grind

/-- A range of one byte has no middle. -/
theorem add_byte {span : Span} {pos : Nat} (h : Tidy twice ok S R P) (hspan : span ∈ S)
    (hlo : span.lo ≤ pos) (hhi : pos < span.hi) (hok : ok pos) (hok' : ok (pos + 1))
    (hclear : ∀ r ∈ R, (r.hi ≤ pos ∨ pos + 1 ≤ r.lo) ∨ twice pos ∧ r.lo = pos) :
    Tidy twice ok S (⟨pos, pos + 1⟩ :: R) P where
  range_held := by
    intro r hr
    rcases List.mem_cons.mp hr with rfl | hr
    · exact ⟨span, hspan, hlo, hhi⟩
    · exact h.range_held r hr
  range_filled := by
    intro r hr
    rcases List.mem_cons.mp hr with rfl | hr
    · exact Nat.lt_succ_self pos
    · exact h.range_filled r hr
  range_ok := by
    intro r hr
    rcases List.mem_cons.mp hr with rfl | hr
    · exact ⟨hok, hok'⟩
    · exact h.range_ok r hr
  range_apart := by
    refine List.pairwise_cons.mpr ⟨fun r hr => ?_, h.range_apart⟩
    rcases hclear r hr with hapart | ⟨htwice, hlo⟩
    · exact .inl hapart.symm
    · exact .inr ⟨htwice, hlo, .inl rfl⟩
  point_held := h.point_held
  point_ok := h.point_ok
  point_clear := by
    intro p hp r hr
    rcases List.mem_cons.mp hr with rfl | hr
    · exact Nat.lt_or_ge pos p |>.symm
    · exact h.point_clear p hp r hr

/-- The same at another place of a larger text. -/
theorem shift (h : Tidy twice ok S R P) (base : Nat) :
    Tidy (fun p => ∃ q, p = base + q ∧ twice q) (fun p => ∃ q, p = base + q ∧ ok q)
      (S.map (Span.shift base)) (R.map (Span.shift base)) (P.map (base + ·)) where
  range_held := by
    simp only [List.forall_mem_map]
    intro r hr
    obtain ⟨a, ha, hlo, hhi⟩ := h.range_held r hr
    exact ⟨Span.shift base a, List.mem_map_of_mem ha, Nat.add_le_add_left hlo base,
      Nat.add_le_add_left hhi base⟩
  range_filled := by
    simp only [List.forall_mem_map]
    intro r hr
    exact Nat.add_lt_add_left (h.range_filled r hr) base
  range_ok := by
    simp only [List.forall_mem_map]
    intro r hr
    exact ⟨⟨r.lo, rfl, (h.range_ok r hr).1⟩, r.hi, rfl, (h.range_ok r hr).2⟩
  range_apart := by
    rw [List.pairwise_map]
    refine h.range_apart.imp ?_
    rintro a b ((hab | hab) | ⟨htwice, hlo, hbyte⟩)
    · exact .inl (.inl (Nat.add_le_add_left hab base))
    · exact .inl (.inr (Nat.add_le_add_left hab base))
    · refine .inr ⟨⟨a.lo, rfl, htwice⟩, congrArg (base + ·) hlo, ?_⟩
      simp only [Span.shift]
      omega
  point_held := by
    simp only [List.forall_mem_map]
    intro p hp
    obtain ⟨a, ha, hlo, hhi⟩ := h.point_held p hp
    exact ⟨Span.shift base a, List.mem_map_of_mem ha, Nat.add_le_add_left hlo base,
      Nat.add_le_add_left hhi base⟩
  point_ok := by
    simp only [List.forall_mem_map]
    exact fun p hp => ⟨p, rfl, h.point_ok p hp⟩
  point_clear := by
    simp only [List.forall_mem_map]
    intro p hp r hr
    rcases h.point_clear p hp r hr with h | h
    · exact .inl (Nat.add_le_add_left h base)
    · exact .inr (Nat.add_le_add_left h base)

end Tidy

namespace Laid

variable {g : Ground} {S : List Span} {E : List Event} {L : List Leaf}

/-- Edits that are laid with care can be applied at once. -/
theorem tidy (hcareful : g.careful) (h : Laid g S E L) :
    Tidy g.twice g.ok S (rangesOf E) (pointsOf E ++ L.flatMap Leaf.points) := by
  induction h with
  | nil => constructor <;> simp
  | quiet h =>
    constructor <;> simp [Event.ranges_of_quiet h, Event.points_of_quiet h]
  | @mention m hfilled hlo hhi =>
    have := Nat.le_of_lt hfilled
    constructor <;> simp [Event.ranges, Event.points, Leaf.points, Leaf.span, *]
  | append _ _ hapart ih ih' =>
    rw [rangesOf_append]
    refine (ih.append ih' hapart).of_points ?_
    intro p
    simp
    grind
  | widen _ hholds ih => exact ih.widen hholds
  | whole _ hle hlo hhi ih =>
    refine (ih.ends hle hlo hhi).of_points ?_
    intro p
    simp [Leaf.points, Leaf.span]
    grind
  | forget _ ih => exact ih.of_points (by simp)
  | wrapped _ wrapFn ih =>
    rw [rangesOf_append, rangesOf_wrap, pointsOf_append, pointsOf_wrap]
    exact ih.of_points (by simp)
  | strip _ hspan hlo hhi hok hok' honce ih =>
    exact ih.add_byte hspan hlo hhi hok hok' (honce hcareful)
  | @erase m hfilled hlo hhi =>
    have := Nat.le_of_lt hfilled
    constructor <;> simp [Event.ranges, Event.points, *]
  | unpack hfilled hlo hhi hbehind hstop =>
    constructor <;> simp [Event.ranges, Event.points, *]
  | careless hcareless _ _ => exact absurd hcareful hcareless

/-- References and overwritten patterns stand apart from each other. -/
theorem solids_tidy (h : Laid g S E L) :
    Tidy (fun _ => False) (fun _ => True) S (solidsOf E) [] := by
  induction h with
  | nil => constructor <;> simp
  | quiet h => constructor <;> simp [Event.solids_of_quiet h]
  | mention hfilled _ _ => constructor <;> simp [Event.solids, hfilled]
  | append _ _ hapart ih ih' =>
    rw [solidsOf_append]
    exact ih.append ih' hapart
  | widen _ hholds ih => exact ih.widen hholds
  | whole _ _ _ _ ih => exact ih
  | forget _ ih => exact ih
  | wrapped _ wrapFn ih =>
    rw [solidsOf_append, solidsOf_wrap]
    exact ih
  | strip _ _ _ _ _ _ _ ih => exact ih
  | erase hfilled _ _ => constructor <;> simp [Event.solids, hfilled]
  | unpack hfilled _ _ _ _ => constructor <;> simp [Event.solids, hfilled]
  | careless _ _ ih => exact ih

/-- The edits that a walk makes at once take something away or wrap a leaf. -/
theorem edit_forms (h : Laid g S E L) {e : Edit} (he : Event.edit e ∈ E) :
    (∃ start stop, e = .remove start stop) ∨ ∃ leaf : Leaf, ∃ wrapFn, e ∈ leaf.edits wrapFn := by
  induction h with
  | nil | mention | unpack => simp at he
  | quiet h =>
    rw [List.mem_singleton] at he
    simp [← he, Event.isQuiet] at h
  | append _ _ _ ih ih' => exact (List.mem_append.mp he).elim ih ih'
  | widen _ _ ih | whole _ _ _ _ ih | forget _ ih => exact ih he
  | wrapped _ wrapFn ih =>
    rcases List.mem_append.mp he with he | he
    · obtain ⟨leaf, _, he⟩ := List.mem_flatMap.mp he
      exact .inr ⟨leaf, wrapFn, by simpa using he⟩
    · exact ih he
  | strip _ _ _ _ _ _ _ ih | careless _ _ ih =>
    rcases List.mem_cons.mp he with he | he
    · exact .inl ⟨_, _, Event.edit.inj he⟩
    · exact ih he
  | erase =>
    exact .inl ⟨_, _, by simpa using he⟩

theorem widen_one {inner outer : Span} (h : Laid g [inner] E L)
    (hholds : outer.lo ≤ inner.lo ∧ inner.hi ≤ outer.hi) : Laid g [outer] E L :=
  h.widen (by simpa using hholds)

/-- Layouts one behind the other. -/
theorem flatMap {α : Type} {spans : α → List Span} {events : α → List Event}
    {leaves : α → List Leaf} {items : List α}
    (h : ∀ a ∈ items, Laid g (spans a) (events a) (leaves a))
    (hapart : (items.flatMap spans).Pairwise Span.Apart) :
    Laid g (items.flatMap spans) (items.flatMap events) (items.flatMap leaves) := by
  induction items with
  | nil => exact nil
  | cons a items ih =>
    rw [List.flatMap_cons, List.pairwise_append] at hapart
    exact append (h a (by simp)) (ih (fun b hb => h b (by simp [hb])) hapart.2.1) hapart.2.2

theorem cons_quiet {event : Event} (hquiet : event.isQuiet = true) (h : Laid g S E L) :
    Laid g S (event :: E) L :=
  (quiet hquiet).append h (by simp [AllApart])

theorem append_quiet {Q : List Event} (hquiet : ∀ event ∈ Q, event.isQuiet = true)
    (h : Laid g S E L) : Laid g S (Q ++ E) L := by
  induction Q with
  | nil => exact h
  | cons event Q ih =>
    exact cons_quiet (hquiet event (by simp)) (ih fun other hother => hquiet other (by simp [hother]))

theorem framed {kind : FrameKind} (h : Laid g S E L) :
    Laid g S (framed kind E) L := by
  have hleave : Laid g (S ++ []) (E ++ [.leave]) (L ++ []) :=
    h.append (quiet rfl) (by simp [AllApart])
  rw [List.append_nil, List.append_nil] at hleave
  exact cons_quiet rfl hleave

theorem declared {place : Place} {names : List String} (h : Laid g S E L) :
    Laid g S (declareAll place names ++ E) L := by
  refine append_quiet ?_ h
  intro event hevent
  obtain ⟨name, _, rfl⟩ := List.mem_map.mp hevent
  rfl

/-- Parameters are declared in the frame of their function. -/
theorem function {names : List String} {E' : List Event} (h : Laid g S (E ++ E') L) :
    Laid g S (Walk.framed .function (declareAll .current names ++ E ++ E')) L := by
  rw [List.append_assoc]
  exact h.declared.framed

end Laid

end Walk

end RefSugar

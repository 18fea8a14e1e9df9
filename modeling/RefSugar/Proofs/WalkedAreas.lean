import RefSugar.Proofs.BoundNames
import RefSugar.Proofs.Chains

/-! A walk keeps to the areas of the tree. Each visit is compared with its site: its events declare and
mention what the site does, it goes on to the sites outside, and its scope is the area of the site. It
follows that pieces and sites declare the same, mention the same names in the same scopes, and lead to
the same visits. -/
namespace RefSugar.Lexical

open Syntax Walk

variable {q : Site} {id : Ident} {v : Visit} {S : Scope} {A : Area}

def site : Visit → Site
  | .expr _ _ e => .expr e
  | .property p => .property p
  | .pattern p => .pattern p
  | .target p => .target p
  | .field f => .field f
  | .targetField f => .targetField f
  | .func f => .func f
  | .cls c => .cls c
  | .member m => .member m
  | .attr a => .attr a
  | .stmt st => .stmt st
  | .declarator place d => .declarator (if place = .hoisted then .hoisted else .lexical) d

def sites (ps : List Piece) : List Site :=
  (partsOf ps).map site

def decls (ps : List Piece) : List Decl :=
  ps.flatMap fun
    | .event ev => ev.decls
    | .part _ _ => []

attribute [local simp] values patterns stmtPieces itemPieces site sites itemSites Visit.outer
  List.map_flatMap Function.comp_def

/-! ### Pieces -/

section Pieces

variable {s : Setting} {ps qs : List Piece}

theorem mem_sites : q ∈ sites ps ↔ ∃ s v, .part s v ∈ ps ∧ site v = q := by
  simp only [sites, List.mem_map, mem_partsOf]
  grind

theorem mem_decls {d : Decl} : d ∈ decls ps ↔ ∃ ev, .event ev ∈ ps ∧ d ∈ ev.decls := by
  simp only [decls, List.mem_flatMap]
  constructor
  · rintro ⟨ev | ⟨_, _⟩, hp, hd⟩
    · exact ⟨ev, hp, hd⟩
    · cases hd
  · rintro ⟨ev, hev, hd⟩
    exact ⟨_, hev, hd⟩

@[simp] theorem sites_key (key : Key) : (partsOf (keyPieces s key)).map site = keySites key := by
  cases key <;> simp [keyPieces, keySites]

@[simp] theorem decls_nil : decls [] = [] := rfl

@[simp] theorem decls_append : decls (ps ++ qs) = decls ps ++ decls qs :=
  List.flatMap_append

@[simp] theorem decls_event (ev : Event) : decls (.event ev :: ps) = ev.decls ++ decls ps := rfl

@[simp] theorem decls_part (v : Visit) : decls (.part s v :: ps) = decls ps := rfl

@[simp] theorem decls_events (es : List Event) : decls (events es) = es.flatMap Event.decls := by
  simp [decls, events, List.flatMap_map]

@[simp] theorem decls_map {α : Type} (l : List α) (visit : α → Visit) :
    decls (l.map fun a => .part s (visit a)) = [] := by
  simp [decls, List.flatMap_map]

@[simp] theorem decls_flatMap {α : Type} (l : List α) (f : α → List Piece) :
    decls (l.flatMap f) = l.flatMap fun a => decls (f a) := by
  simp [decls, List.flatMap_assoc]

@[simp] theorem decls_key (key : Key) : decls (keyPieces s key) = [] := by
  cases key <;> simp [keyPieces]

@[simp] theorem decls_mention (m : Mention) : (mention s m).decls = [] := rfl

end Pieces

section Declarators

variable {s : Setting} {source : List Char} {ignore : List String} {kind : VarKind} {span : Span}
  {target : Pattern} {init : Option Expr} {value : Expr} {d : Decl}

/-- A declarator that is not unwrapped declares the names of its pattern. -/
theorem declares_ordinary (h : ¬ Unwrapped source ignore (.mk span target init)) :
    Declares source ignore (.declarator kind (.mk span target init)) d ↔
      d.place = kind.place ∧ d.kind = .known ∧ ∃ id, Binds target id ∧ id.name = d.name := by
  obtain ⟨place, binding, name⟩ := d
  constructor
  · intro hd
    cases hd with
    | unwrap _ _ _ href => exact absurd (.name href) h
    | unpack _ _ href htarget _ => exact absurd (.pattern href htarget) h
    | ordinary _ _ hid => exact ⟨rfl, rfl, _, hid, rfl⟩
  · rintro ⟨rfl, rfl, id, hid, rfl⟩
    exact .ordinary kind h hid

theorem declares_unwrap (h : GivesRef source ignore value) :
    Declares source ignore (.declarator kind (.mk span (.name id) (some value))) d ↔
      d = ⟨kind.place, .unwrap, id.name⟩ := by
  constructor
  · intro hd
    cases hd with
    | unwrap => rfl
    | unpack _ _ _ htarget _ => cases htarget
    | ordinary _ hnot _ => exact absurd (.name h) hnot
  · rintro rfl
    exact .unwrap kind span id h

/-- One that is unpacked declares fields to unwrap, and an ordinary rest. -/
theorem declares_unpack (h : GivesRef source ignore value) (htarget : Unpack.Unpackable target) :
    Declares source ignore (.declarator kind (.mk span target (some value))) d ↔
      d.place = kind.place ∧ ∃ id, Unpacks target d.kind id ∧ id.name = d.name := by
  obtain ⟨place, binding, name⟩ := d
  constructor
  · intro hd
    cases hd with
    | unwrap => cases htarget
    | unpack _ _ _ _ hid => exact ⟨rfl, _, hid, rfl⟩
    | ordinary _ hnot _ => exact absurd (.pattern h htarget) hnot
  · rintro ⟨rfl, id, hid, rfl⟩
    exact .unpack kind span h htarget hid

theorem unwrapEvents?_isSome_iff {place : Place} {stop : Nat} {callee : Expr} :
    (∃ own, unwrapEvents? s place stop callee target = some own) ↔
      (∃ id, target = .name id) ∨ Unpack.Unpackable target := by
  rw [← @Unpack.exists_planOf_iff s.source target]
  simp only [← Unpack.plan?_eq_some_iff]
  constructor
  · rintro ⟨own, hown⟩
    rcases (unwrapEvents?_cases hown).2 with ⟨id, h, _⟩ | ⟨plan, h, _⟩
    · exact .inl ⟨id, h⟩
    · exact .inr ⟨plan, h⟩
  · rintro (⟨id, rfl⟩ | ⟨plan, hplan⟩)
    · exact ⟨_, rfl⟩
    · cases target with
      | name id => exact ⟨_, rfl⟩
      | _ => exact ⟨_, by simp only [unwrapEvents?, hplan, Option.map_some]; rfl⟩

/-- A declared variable is unwrapped if its value gives a reference and its target can be unpacked. -/
theorem unwrapped_iff (place : Place) (stop : Nat) :
    Unwrapped s.source s.ignore (.mk span target init) ↔ ∃ callee own,
      unwrapCallee? s init = some callee ∧ unwrapEvents? s place stop callee target = some own := by
  constructor
  · intro h
    cases h with
    | name h =>
      obtain ⟨callee, hcallee⟩ := unwrapCallee?_some.mpr h
      exact ⟨callee, _, hcallee, rfl⟩
    | pattern h htarget =>
      obtain ⟨callee, hcallee⟩ := unwrapCallee?_some.mpr h
      obtain ⟨own, hown⟩ := unwrapEvents?_isSome_iff.mpr (.inr htarget)
      exact ⟨callee, own, hcallee, hown⟩
  · rintro ⟨callee, own, hcallee, hown⟩
    cases init with
    | none => simp [unwrapCallee?] at hcallee
    | some value =>
      have href := unwrapCallee?_some.mp ⟨callee, hcallee⟩
      rcases unwrapEvents?_isSome_iff.mp ⟨own, hown⟩ with ⟨id, rfl⟩ | htarget
      · exact .name href
      · exact .pattern href htarget

end Declarators

/-! ### Visits and sites -/

section Visits

variable {s : Setting}

theorem sites_declarator (place : Place) (d : Declarator) :
    sites (declaratorOuter s place d) =
      outside s.source s.ignore (site (.declarator place d)) := by
  obtain ⟨span, target, init⟩ := d
  have hiff := @unwrapped_iff s span target init place span.hi
  simp only [declaratorOuter, outside]
  cases hcallee : unwrapCallee? s init with
  | none => simp [if_neg (hiff.not.mpr (by simp [hcallee]))]
  | some callee =>
    cases hown : unwrapEvents? s place span.hi callee target with
    | none => simp [hown, if_neg (hiff.not.mpr (by simp [hcallee, hown]))]
    | some own => simp [hown, if_pos (hiff.mpr ⟨callee, own, hcallee, hown⟩)]

/-- A visit goes on to the sites outside of its scope. -/
theorem sites_outer (v : Visit) : sites (v.outer s) = outside s.source s.ignore (site v) := by
  cases v with
  | expr chain settled e =>
    cases e with
    | update span operand => cases operand <;> simp [exprOuter, outside]
    | function span name fn | classDef span name cls =>
      cases name <;> simp [exprOuter, outside]
    | _ => simp [exprOuter, outside]
  | property p => cases p <;> simp [propertyOuter, outside]
  | pattern p => cases p <;> simp [patternOuter, outside]
  | target p => cases p <;> simp [targetOuter, outside]
  | field f => cases f <;> simp [fieldOuter, outside]
  | targetField f => cases f <;> simp [targetFieldOuter, outside]
  | func f => rfl
  | cls c => cases c; simp [outside]
  | member m => cases m <;> simp [memberOuter, outside]
  | attr a => cases a <;> simp [attrOuter, outside]
  | stmt st =>
    cases st with
    | vars span kind decls => cases kind <;> simp [stmtOuter, outside]
    | function span name fn => cases fn; simp [stmtOuter, outside]
    | resource span decls =>
      simp only [Visit.outer, stmtOuter, site, sites, outside, partsOf_flatMap, List.map_flatMap]
      congr 1
      funext ⟨_, _, _⟩
      simp [resourceOuter]
    | _ => simp [stmtOuter, outside]
  | declarator place d => exact sites_declarator place d

theorem decls_wrap (wrapFn : String) (parts : List Leaf) :
    (wrap wrapFn parts).flatMap Event.decls = [] := by
  rw [wrap, List.flatMap_assoc, List.flatMap_eq_nil_iff]
  intro leaf _
  simp [List.flatMap_map, Event.decls]

theorem decls_declareAll (place : Place) (names : List String) :
    (declareAll place names).flatMap Event.decls = names.map (⟨place, .known, ·⟩) := by
  rw [declareAll, List.flatMap_map]
  exact List.map_eq_flatMap.symm

theorem decls_call (settled : Bool) (callee : Expr) (args : List Item) :
    (callEvents s settled callee args).flatMap Event.decls = [] := by
  unfold callEvents
  dsimp only
  split
  · simp [Event.decls]
  · split <;> split <;> (try split) <;> simp [decls_wrap, stripLeading, stripTrailing, Event.decls]

theorem decls_attr (name : AttrName) (braced : Bool) (value : Option Expr) :
    (attrEvents s name braced value).flatMap Event.decls = [] := by
  unfold attrEvents
  split <;> (try split) <;> cases value <;> simp [decls_wrap, stripTrailing, Event.decls]

theorem decls_functionName (name : Ident) (body : List Stmt) :
    (functionNameEvents s name body).flatMap Event.decls = [] := by
  unfold functionNameEvents
  split <;> simp [decls_wrap, stripTrailing, Event.decls]

theorem decls_functionValue (target : Pattern) (init : Option Expr) :
    (functionValueEvents s target init).flatMap Event.decls = [] := by
  unfold functionValueEvents
  split <;> (try split) <;> simp [decls_wrap, stripTrailing, Event.decls]

theorem mem_known {place : Place} {names : List String} {d : Decl} :
    d ∈ names.map (⟨place, .known, ·⟩) ↔ d.place = place ∧ d.kind = .known ∧ d.name ∈ names := by
  obtain ⟨place', kind, name⟩ := d
  simp only [List.mem_map, Decl.mk.injEq]
  grind

theorem place_kind (place : Place) :
    (if place = .hoisted then VarKind.hoisted else .lexical).place = place := by
  cases place <;> rfl

/-- The events of a declarator declare what the declarator declares. -/
theorem decls_declarator (place : Place) (d : Declarator) {decl : Decl} :
    decl ∈ decls (declaratorOuter s place d) ↔
      Declares s.source s.ignore (site (.declarator place d)) decl := by
  obtain ⟨span, target, init⟩ := d
  have hiff := @unwrapped_iff s span target init place span.hi
  have hordinary (h : ¬ Unwrapped s.source s.ignore (.mk span target init)) :
      decl ∈ (boundNames target).map (⟨place, .known, ·⟩) ↔
        Declares s.source s.ignore (site (.declarator place (.mk span target init))) decl := by
    rw [site, declares_ordinary h, mem_known, mem_boundNames]
    rw [place_kind]
  rw [declaratorOuter]
  cases hcallee : unwrapCallee? s init with
  | none =>
    rw [← hordinary (hiff.not.mpr (by simp [hcallee]))]
    simp [decls_declareAll, decls_functionValue]
  | some callee =>
    cases hown : unwrapEvents? s place span.hi callee target with
    | none =>
      rw [← hordinary (hiff.not.mpr (by simp [hcallee, hown]))]
      simp [hown, decls_declareAll]
    | some own =>
      obtain ⟨value, rfl⟩ : ∃ value, init = some value := by
        cases init with
        | none => simp [unwrapCallee?] at hcallee
        | some value => exact ⟨value, rfl⟩
      have href := unwrapCallee?_some.mp ⟨callee, hcallee⟩
      rcases (unwrapEvents?_cases hown).2 with ⟨id, rfl, rfl⟩ | ⟨plan, hplan, rfl⟩
      · rw [site, declares_unwrap href, place_kind]
        simp [hown, Event.decls, stripLeading]
      · have hof := Unpack.plan?_eq_some_iff.mp hplan
        rw [site, declares_unpack href (Unpack.exists_planOf_iff.mp ⟨plan, hof⟩), place_kind]
        obtain ⟨place', binding, name⟩ := decl
        cases binding with
        | known =>
          rw [← plan_restName?_iff hof]
          simp [hown, Event.decls, stripLeading]
          grind
        | unwrap =>
          rw [← mem_plan_fieldNames hof]
          simp [hown, Event.decls, stripLeading]
          grind

/-- What a visit declares outside of its scope is what its site declares. -/
theorem decls_outer (v : Visit) {d : Decl} :
    d ∈ decls (v.outer s) ↔ Declares s.source s.ignore (site v) d := by
  have hnone {v : Visit} (h : decls (v.outer s) = []) (hsite : ¬ Declares s.source s.ignore (site v) d) :
      d ∈ decls (v.outer s) ↔ Declares s.source s.ignore (site v) d :=
    iff_of_false (by rw [h]; exact List.not_mem_nil) hsite
  have hone {v : Visit} {d₀ : Decl} (h : decls (v.outer s) = [d₀])
      (hsite : Declares s.source s.ignore (site v) d ↔ d = d₀) :
      d ∈ decls (v.outer s) ↔ Declares s.source s.ignore (site v) d := by
    rw [h, hsite, List.mem_singleton]
  cases v with
  | expr chain settled e =>
    refine hnone ?_ (by rintro ⟨⟩)
    cases e with
    | update span operand => cases operand <;> simp [exprOuter]
    | function span name fn | classDef span name cls => cases name <;> simp [exprOuter]
    | _ => simp [exprOuter, decls_call]
  | property p => exact hnone (by cases p <;> simp [propertyOuter]) (by rintro ⟨⟩)
  | pattern p => exact hnone (by cases p <;> simp [patternOuter]) (by rintro ⟨⟩)
  | target p => exact hnone (by cases p <;> simp [targetOuter]) (by rintro ⟨⟩)
  | field f => exact hnone (by cases f <;> simp [fieldOuter]) (by rintro ⟨⟩)
  | targetField f => exact hnone (by cases f <;> simp [targetFieldOuter]) (by rintro ⟨⟩)
  | func f => exact hnone rfl (by rintro ⟨⟩)
  | cls c => exact hnone (by cases c; simp) (by rintro ⟨⟩)
  | member m => exact hnone (by cases m <;> simp [memberOuter]) (by rintro ⟨⟩)
  | attr a => exact hnone (by cases a <;> simp [attrOuter, decls_attr]) (by rintro ⟨⟩)
  | stmt st =>
    cases st with
    | function span name fn =>
      refine hone (by cases fn; simp [stmtOuter, decls_functionName, Event.decls])
        ⟨fun h => by cases h; rfl, fun h => h ▸ .function span name fn⟩
    | classDef span name cls =>
      exact hone (by simp [stmtOuter, Event.decls])
        ⟨fun h => by cases h; rfl, fun h => h ▸ .classDef span name cls⟩
    | enumeration span name es =>
      exact hone (by simp [stmtOuter, Event.decls])
        ⟨fun h => by cases h; rfl, fun h => h ▸ .enumeration span name es⟩
    | imports span locals =>
      simp only [Visit.outer, stmtOuter, decls_events, decls_declareAll, List.map_map, List.mem_map,
        Function.comp_apply]
      constructor
      · rintro ⟨id, hid, rfl⟩
        exact .imports span hid
      · intro h
        cases h with
        | imports _ hid => exact ⟨_, hid, rfl⟩
    | resource span decls =>
      refine hnone ?_ (by rintro ⟨⟩)
      simp only [Visit.outer, stmtOuter, decls_flatMap, List.flatMap_eq_nil_iff]
      rintro ⟨_, _, _⟩ _
      simp [resourceOuter]
    | _ => exact hnone (by simp [stmtOuter]) (by rintro ⟨⟩)
  | declarator place d => exact decls_declarator place d

theorem mem_mentioned : id ∈ v.mentioned ↔ (site v).Mentions id := by
  constructor
  · intro h
    unfold Visit.mentioned at h
    split at h
    all_goals
      first
      | obtain rfl := List.mem_singleton.mp h
        constructor
      | cases h
  · intro h
    cases v <;> cases h <;> exact List.mem_singleton_self _

/-- A visit mentions outside of its scope what its site mentions. -/
theorem mentions_outer (v : Visit) :
    (∃ m, .event (.mention m) ∈ v.outer s ∧ m.id = id) ↔ (site v).Mentions id := by
  rw [← mem_mentioned]
  constructor
  · rintro ⟨m, hm, rfl⟩
    rcases outer_event hm with ⟨m', heq, hid⟩ | ⟨_, _, heq⟩ | htriggered
    · cases heq
      exact hid
    · cases heq
    · cases triggers_of_mem htriggered
  · intro h
    unfold Visit.mentioned at h
    split at h
    all_goals
      first
      | obtain rfl := List.mem_singleton.mp h
        exact ⟨_, List.mem_cons_self .., rfl⟩
      | cases h

/-- The scope is the area: it declares the names of the patterns of the area's own, and goes on to the
sites of the area. -/
structure Opens (S : Scope) (A : Area) : Prop where
  kind : S.kind.isHoistTarget = A.isBody
  sites : sites S.pieces = A.sites
  decls : ∀ d, d ∈ decls S.pieces ↔ d.place = .current ∧ d.kind = .known ∧
    ∃ p ∈ A.own, ∃ id, Binds p id ∧ id.name = d.name

theorem opens_names (names : List String)
    (hkind : S.kind.isHoistTarget = A.isBody) (hsites : Lexical.sites S.pieces = A.sites)
    (hdecls : Lexical.decls S.pieces = names.map (⟨.current, .known, ·⟩))
    (hnames : ∀ name, name ∈ names ↔ ∃ p ∈ A.own, ∃ id, Binds p id ∧ id.name = name) :
    Opens S A :=
  ⟨hkind, hsites, fun d => by rw [hdecls, mem_known, hnames]⟩

/-- The scope of a visit is the area that its site opens. -/
theorem opens (s : Setting) (v : Visit) : Option.Rel Opens (v.scope? s) (inside (site v)) := by
  have hplain {S : Scope} {A : Area} (hown : A.own = []) (hkind : S.kind.isHoistTarget = A.isBody)
      (hsites : sites S.pieces = A.sites) (hdecls : decls S.pieces = []) : Opens S A :=
    ⟨hkind, hsites, fun d => by simp [hdecls, hown]⟩
  cases v with
  | expr chain settled e =>
    cases e with
    | function span name fn | classDef span name cls =>
      cases name with
      | none => exact .none
      | some name =>
        refine .some (opens_names [name.name] rfl rfl rfl fun n => ?_)
        simp [binds_name, eq_comm]
    | arrow span params body =>
      exact .some (opens_names _ rfl (by simp [arrowPieces]) (by simp [arrowPieces, decls_declareAll])
        fun _ => mem_boundNamesAll params)
    | arrowTo span params result =>
      exact .some (opens_names _ rfl (by simp [arrowPieces]) (by simp [arrowPieces, decls_declareAll])
        fun _ => mem_boundNamesAll params)
    | _ => exact .none
  | func f =>
    obtain ⟨decorators, params, body⟩ := f
    exact .some (opens_names _ rfl (by simp [funcScope, Function.comp_def])
      (by simp [funcScope, Function.comp_def, decls_declareAll])
      fun _ => mem_paramNames params)
  | member m =>
    cases m with
    | constructor params body =>
      exact .some (opens_names _ rfl (by simp) (by simp [decls_declareAll]) fun _ => mem_paramNames params)
    | staticBlock body => exact .some (hplain rfl rfl (by simp) (by simp))
    | _ => exact .none
  | property p =>
    cases p with
    | getter span key body => exact .some (hplain rfl rfl (by simp) (by simp))
    | setter span key param body =>
      exact .some (opens_names _ rfl (by simp [arrowPieces]) (by simp [arrowPieces, decls_declareAll])
        fun _ => mem_boundNamesAll [param])
    | _ => exact .none
  | stmt st =>
    cases st with
    | block | loop | loopOver | switch => exact .some (hplain rfl rfl (by simp) (by simp))
    | loopInto span e target body => exact .some (hplain rfl rfl (by simp [site]) (by simp))
    | handler span params body =>
      exact .some (opens_names _ rfl (by simp [arrowPieces]) (by simp [arrowPieces, decls_declareAll])
        fun _ => mem_boundNamesAll params)
    | _ => exact .none
  | _ => exact .none

end Visits

/-! ### Pieces and sites -/

section Agreement

variable {source : List Char} {ignore : List String} {ps : List Piece}

/-- The parts among the pieces are read in the text, and with the names to ignore. -/
def ReadIn (source : List Char) (ignore : List String) (ps : List Piece) : Prop :=
  ∀ s v, .part s v ∈ ps → s.source = source ∧ s.ignore = ignore

theorem readIn_pieces (h : ReadIn source ignore ps) {s : Setting}
    (hv : .part s v ∈ ps) : ReadIn source ignore (v.pieces s) := by
  intro s' v' hv'
  obtain ⟨_, rfl⟩ := (v.pieces_inside s s' v' hv').1.eq
  exact h s v hv

theorem readIn_outer (h : ReadIn source ignore ps) {s : Setting}
    (hv : .part s v ∈ ps) : ReadIn source ignore (v.outer s) :=
  fun s' v' hv' => readIn_pieces h hv s' v' (List.mem_append_left _ hv')

theorem readIn_scope (h : ReadIn source ignore ps) {s : Setting}
    (hv : .part s v ∈ ps) (hS : v.scope? s = some S) : ReadIn source ignore S.pieces :=
  fun s' v' hv' => readIn_pieces h hv s' v' (List.mem_append_right _ (by simpa [hS] using hv'))

theorem opens_of_scope {s : Setting} (hS : v.scope? s = some S) :
    ∃ A, inside (site v) = some A ∧ Opens S A := by
  have h := opens s v
  rw [hS] at h
  generalize hinside : inside (site v) = area at h
  cases h with
  | some h => exact ⟨_, rfl, h⟩

theorem opens_of_area {s : Setting} {v : Visit} {A : Area} (hA : inside (site v) = some A) :
    ∃ S, v.scope? s = some S ∧ Opens S A := by
  have h := opens s v
  rw [hA] at h
  generalize hscope : v.scope? s = scope at h
  cases h with
  | some h => exact ⟨_, rfl, h⟩

/-- What pieces declare is declared by an event among them, or by their sites. -/
theorem declared_of_declares {d : Decl} (h : Walk.Declares ps d) (hread : ReadIn source ignore ps) :
    d ∈ decls ps ∨ Declared source ignore (sites ps) d := by
  induction h with
  | event hev hd => exact .inl (mem_decls.mpr ⟨_, hev, hd⟩)
  | @outer ps s v d hv _ ih =>
    obtain ⟨rfl, rfl⟩ := hread s v hv
    have hq : site v ∈ sites ps := mem_sites.mpr ⟨s, v, hv, rfl⟩
    rcases ih (readIn_outer hread hv) with hd | hd
    · exact .inr (.own hq ((decls_outer v).mp hd))
    · exact .inr (.outside hq (sites_outer v ▸ hd))
  | @inner ps s v S d hv hS _ hplace hkind ih =>
    obtain ⟨A, hA, hopens⟩ := opens_of_scope hS
    have hq : site v ∈ sites ps := mem_sites.mpr ⟨s, v, hv, rfl⟩
    rcases ih (readIn_scope hread hv hS) with hd | hd
    · rw [((hopens.decls d).mp hd).1] at hplace
      cases hplace
    · exact .inr (.inside hq hA (hopens.kind ▸ hkind) (hopens.sites ▸ hd) hplace)

/-- Conversely, what the sites declare the pieces declare. -/
theorem declares_of_declared {qs : List Site} {d : Decl} (h : Declared source ignore qs d)
    (hread : ReadIn source ignore ps) (hsites : sites ps = qs) : Walk.Declares ps d := by
  induction h generalizing ps with
  | own hq hd =>
    obtain ⟨s, v, hv, rfl⟩ := mem_sites.mp (hsites ▸ hq)
    obtain ⟨rfl, rfl⟩ := hread s v hv
    obtain ⟨ev, hev, hd⟩ := mem_decls.mp ((decls_outer v).mpr hd)
    exact .outer hv (.event hev hd)
  | outside hq _ ih =>
    obtain ⟨s, v, hv, rfl⟩ := mem_sites.mp (hsites ▸ hq)
    obtain ⟨rfl, rfl⟩ := hread s v hv
    exact .outer hv (ih (readIn_outer hread hv) (sites_outer v))
  | inside hq hA hbody _ hplace ih =>
    obtain ⟨s, v, hv, rfl⟩ := mem_sites.mp (hsites ▸ hq)
    obtain ⟨S, hS, hopens⟩ := @opens_of_area s v _ hA
    exact .inner hv hS (ih (readIn_scope hread hv hS) hopens.sites) hplace (hopens.kind.trans hbody)

def Same (source : List Char) (ignore : List String) (S : Scope) (A : Area) : Prop :=
  ∀ kind name, S.Declares kind name ↔ Has source ignore A kind name

/-- A scope that is an area declares the same. -/
theorem Opens.same (h : Opens S A) (hread : ReadIn source ignore S.pieces) :
    Same source ignore S A := by
  intro kind name
  constructor
  · rintro ⟨d, hd, rfl, rfl, hplace⟩
    rcases declared_of_declares hd hread with hd | hd
    · exact .inl ((h.decls d).mp hd).2
    · exact .inr ⟨d, h.sites ▸ hd, rfl, rfl, h.kind ▸ hplace⟩
  · rintro (⟨rfl, hown⟩ | ⟨d, hd, rfl, rfl, hplace⟩)
    · obtain ⟨ev, hev, hd⟩ := mem_decls.mp ((h.decls ⟨.current, .known, name⟩).mpr ⟨rfl, rfl, hown⟩)
      exact ⟨_, .event hev hd, rfl, rfl, by rintro ⟨⟩⟩
    · exact ⟨d, declares_of_declared hd hread h.sites, rfl, rfl, h.kind ▸ hplace⟩

/-- A reference among the pieces is one among the sites, in areas that declare the same. -/
theorem mentioned_of_occurs {path : List Scope} {m : Mention} (h : Occurs ps path m)
    (hread : ReadIn source ignore ps) : path = [] ∧ .event (.mention m) ∈ ps ∨
      ∃ areas, Mentioned source ignore (sites ps) areas m.id ∧
        List.Forall₂ (Same source ignore) path areas := by
  induction h with
  | event hev => exact .inl ⟨rfl, hev⟩
  | @outer ps s v path m hv _ ih =>
    obtain ⟨rfl, rfl⟩ := hread s v hv
    have hq : site v ∈ sites ps := mem_sites.mpr ⟨s, v, hv, rfl⟩
    rcases ih (readIn_outer hread hv) with ⟨rfl, hm⟩ | ⟨areas, hid, hsame⟩
    · exact .inr ⟨[], .own hq ((mentions_outer v).mp ⟨m, hm, rfl⟩), .nil⟩
    · exact .inr ⟨areas, .outside hq (sites_outer v ▸ hid), hsame⟩
  | @inner ps s v S path m hv hS _ ih =>
    obtain ⟨A, hA, hopens⟩ := opens_of_scope hS
    have hread' := readIn_scope hread hv hS
    rcases ih hread' with ⟨rfl, hm⟩ | ⟨areas, hid, hsame⟩
    · obtain ⟨_, heq⟩ := Visit.scope_event hS hm
      cases heq
    · exact .inr ⟨areas ++ [A],
        .inside (mem_sites.mpr ⟨s, v, hv, rfl⟩) hA (hopens.sites ▸ hid),
        List.rel_append hsame (.cons (hopens.same hread') .nil)⟩

/-- A reference among the sites is met by the walk, in scopes that declare the same. -/
theorem occurs_of_mentioned {qs : List Site} {areas : List Area}
    (h : Mentioned source ignore qs areas id) (hread : ReadIn source ignore ps)
    (hsites : sites ps = qs) : ∃ path m, Occurs ps path m ∧ m.id = id ∧
      List.Forall₂ (Same source ignore) path areas := by
  induction h generalizing ps with
  | own hq hid =>
    obtain ⟨s, v, hv, rfl⟩ := mem_sites.mp (hsites ▸ hq)
    obtain ⟨m, hm, hid⟩ := (mentions_outer (s := s) v).mpr hid
    exact ⟨[], m, .outer hv (.event hm), hid, .nil⟩
  | outside hq _ ih =>
    obtain ⟨s, v, hv, rfl⟩ := mem_sites.mp (hsites ▸ hq)
    obtain ⟨rfl, rfl⟩ := hread s v hv
    obtain ⟨path, m, hm, hrest⟩ := ih (readIn_outer hread hv) (sites_outer v)
    exact ⟨path, m, .outer hv hm, hrest⟩
  | inside hq hA _ ih =>
    obtain ⟨s, v, hv, rfl⟩ := mem_sites.mp (hsites ▸ hq)
    obtain ⟨S, hS, hopens⟩ := @opens_of_area s v _ hA
    have hread' := readIn_scope hread hv hS
    obtain ⟨path, m, hm, hid, hsame⟩ := ih hread' hopens.sites
    exact ⟨path ++ [S], m, .inner hv hS hm, hid,
      List.rel_append hsame (.cons (hopens.same hread') .nil)⟩

theorem Within.to_outside {qs : List Site} {q' : Site} (h : Within source ignore qs q)
    (hq' : q' ∈ Lexical.outside source ignore q) : Within source ignore qs q' := by
  induction h with
  | here hq => exact .outside hq (.here hq')
  | outside hq _ ih => exact .outside hq (ih hq')
  | inside hq hA _ ih => exact .inside hq hA (ih hq')

theorem Within.to_inside {qs : List Site} {q' : Site} (h : Within source ignore qs q)
    (hA : Lexical.inside q = some A) (hq' : q' ∈ A.sites) : Within source ignore qs q' := by
  induction h with
  | here hq => exact .inside hq hA (.here hq')
  | outside hq _ ih => exact .outside hq (ih hA)
  | inside hq hB _ ih => exact .inside hq hB (ih hA)

/-- A walk comes to the sites that stand among those of the pieces. -/
theorem within_of_visits {s : Setting} (h : Visits ps s v)
    (hread : ReadIn source ignore ps) : Within source ignore (sites ps) (site v) := by
  refine (Visits.downward (motive := fun s v => (s.source = source ∧ s.ignore = ignore) ∧
    Within source ignore (sites ps) (site v)) ?_ ?_ h).2
  · intro s v hv
    exact ⟨hread s v hv, .here (mem_sites.mpr ⟨s, v, hv, rfl⟩)⟩
  · rintro s v _ ⟨⟨rfl, rfl⟩, hwithin⟩ s' v' hv'
    obtain ⟨_, rfl⟩ := (v.pieces_inside s s' v' hv').1.eq
    refine ⟨⟨rfl, rfl⟩, ?_⟩
    rcases List.mem_append.mp hv' with hv' | hv'
    · exact hwithin.to_outside (sites_outer v ▸ mem_sites.mpr ⟨_, v', hv', rfl⟩)
    · obtain ⟨S, hS, hv'⟩ := List.mem_flatMap.mp hv'
      obtain ⟨A, hA, hopens⟩ := opens_of_scope (Option.mem_toList.mp hS)
      exact hwithin.to_inside hA (hopens.sites ▸ mem_sites.mpr ⟨_, v', hv', rfl⟩)

/-- Every site that stands among those of the pieces is visited. -/
theorem visits_of_within {qs : List Site} (h : Within source ignore qs q)
    (hread : ReadIn source ignore ps) (hsites : sites ps = qs) :
    ∃ s v, Visits ps s v ∧ site v = q := by
  induction h generalizing ps with
  | here hq =>
    obtain ⟨s, v, hv, rfl⟩ := mem_sites.mp (hsites ▸ hq)
    exact ⟨s, v, .here hv, rfl⟩
  | outside hq _ ih =>
    obtain ⟨s, v, hv, rfl⟩ := mem_sites.mp (hsites ▸ hq)
    obtain ⟨rfl, rfl⟩ := hread s v hv
    obtain ⟨t, w, hw, hsite⟩ := ih (readIn_outer hread hv) (sites_outer v)
    exact ⟨t, w, .further hv (visits_append.mpr (.inl hw)), hsite⟩
  | inside hq hA _ ih =>
    obtain ⟨s, v, hv, rfl⟩ := mem_sites.mp (hsites ▸ hq)
    obtain ⟨S, hS, hopens⟩ := @opens_of_area s v _ hA
    obtain ⟨t, w, hw, hsite⟩ := ih (readIn_scope hread hv hS) hopens.sites
    exact ⟨t, w, .further hv (visits_append.mpr (.inr (by simpa [hS] using hw))), hsite⟩

end Agreement

end RefSugar.Lexical

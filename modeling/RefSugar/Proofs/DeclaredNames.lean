import RefSugar.Proofs.ArrayPatterns
import RefSugar.Proofs.ObjectPatterns
import RefSugar.Proofs.WalkEdits
import Mathlib.Data.List.Forall2

/-!
The names that unpacking declares. A pattern has a plan exactly if all its elements are names, which
may have defaults, its keys are plain, and its rests are names. The bindings of a plan are told
element by element, and their declarations are those of the names that the pattern binds, in order.
-/
namespace RefSugar.Unpack

open Syntax

variable {p : Pattern} {items : List Pattern} {bs : List Binding}

/-! ### Patterns that can be unpacked -/

inductive IsTarget : Pattern → Prop
  | name (id : Ident) : IsTarget (.name id)
  | default (id : Ident) (value : Expr) : IsTarget (.default (.name id) value)

inductive IsPlainKey : Key → Prop
  | name (id : Ident) : IsPlainKey (.name id)
  | string (span : Span) : IsPlainKey (.string span)
  | number (span : Span) : IsPlainKey (.number span)

inductive IsPlainField : PatternField → Prop
  | shorthand (id : Ident) (value : Option Expr) : IsPlainField (.shorthand id value)
  | pair {key : Key} {value : Pattern} (hkey : IsPlainKey key) (hvalue : IsTarget value) :
    IsPlainField (.pair key value)
  | rest (id : Ident) : IsPlainField (.rest (.name id))

inductive IsPlainItem : Pattern → Prop
  | hole : IsPlainItem .hole
  | target {p : Pattern} (h : IsTarget p) : IsPlainItem p
  | rest (id : Ident) : IsPlainItem (.rest (.name id))

inductive Unpackable : Pattern → Prop
  | object (span : Span) {fields : List PatternField} (h : ∀ f ∈ fields, IsPlainField f) :
    Unpackable (.object span fields)
  | array (span : Span) {items : List Pattern} (h : ∀ p ∈ items, IsPlainItem p) :
    Unpackable (.array span items)

/-! ### What each element binds -/

section Bindings

variable (source : List Char)

/-- What a key is read under: names and numbers by their letters, strings as they are written. -/
inductive ReadUnder : Key → FieldKey → Prop
  | name (id : Ident) : ReadUnder (.name id) (.name id.name)
  | string (span : Span) : ReadUnder (.string span) (.literal (spanText source span))
  | number (span : Span) : ReadUnder (.number span) (.name (spanText source span))

/-- The name that a pattern consists of, and where its default stands. -/
inductive Targets : Pattern → String → Option Span → Prop
  | name (id : Ident) : Targets (.name id) id.name none
  | default (id : Ident) (value : Expr) :
    Targets (.default (.name id) value) id.name (some value.span)

inductive FieldBinds : PatternField → Binding → Prop
  | shorthand (id : Ident) (value : Option Expr) :
    FieldBinds (.shorthand id value) (.field id.name (.name id.name) (value.map Expr.span))
  | pair {key : Key} {fk : FieldKey} {value : Pattern} {target : String} {default : Option Span}
    (hkey : ReadUnder source key fk) (hvalue : Targets value target default) :
    FieldBinds (.pair key value) (.field target fk default)
  | rest (id : Ident) : FieldBinds (.rest (.name id)) (.rest id.name)

inductive ItemBinds : Pattern × Nat → Binding → Prop
  | field {p : Pattern} {target : String} {default : Option Span} (place : Nat)
    (h : Targets p target default) : ItemBinds (p, place) (.field target (.index place) default)
  | rest (id : Ident) (place : Nat) : ItemBinds (.rest (.name id), place) (.rest id.name)

/-- The items that are no holes, each with its place. Holes take up places. -/
def placed (start : Nat) (items : List Pattern) : List (Pattern × Nat) :=
  (items.zipIdx start).filter fun item => !isHole item.1

/-- A plan with one binding for each element, in order. -/
inductive PlanOf : Pattern → Plan → Prop
  | object (span : Span) {fields : List PatternField} {bs : List Binding}
    (h : List.Forall₂ (FieldBinds source) fields bs) :
    PlanOf (.object span fields) ⟨.object, span, bs⟩
  | array (span : Span) {items : List Pattern} {bs : List Binding}
    (h : List.Forall₂ ItemBinds (placed 0 items) bs) : PlanOf (.array span items) ⟨.array, span, bs⟩

end Bindings

variable {source : List Char}

theorem simpleTarget?_eq_some_iff {target : String} {default : Option Span} :
    simpleTarget? p = some (target, default) ↔ Targets p target default := by
  constructor
  · intro h
    rcases simpleTarget?_cases h with ⟨id, rfl, rfl, rfl⟩ | ⟨id, value, rfl, rfl, rfl⟩
    · exact .name id
    · exact .default id value
  · rintro (id | ⟨id, value⟩)
    · rfl
    · rfl

/-- A key is read under its letters, and under nothing else. -/
theorem fieldKey?_eq_some_iff {key : Key} {fk : FieldKey} :
    fieldKey? source key = some fk ↔ ReadUnder source key fk := by
  constructor
  · intro h
    cases key with
    | name id => cases h; exact .name id
    | string span => cases h; exact .string span
    | number span => cases h; exact .number span
    | computed e => cases h
    | other => cases h
  · rintro (id | span | span)
    · rfl
    · rfl
    · rfl

/-- A field becomes the binding that it describes, or none. -/
theorem objectBinding?_eq_some_iff {f : PatternField} {b : Binding} :
    objectBinding? source f = some b ↔ FieldBinds source f b := by
  constructor
  · intro h
    cases f with
    | shorthand id value =>
      cases h
      exact .shorthand id value
    | pair key value =>
      simp only [objectBinding?, Option.bind_eq_some_iff, Option.map_eq_some_iff,
        Prod.exists] at h
      obtain ⟨fk, hkey, target, default, hvalue, rfl⟩ := h
      exact .pair (fieldKey?_eq_some_iff.1 hkey) (simpleTarget?_eq_some_iff.1 hvalue)
    | rest inner =>
      obtain ⟨target, -, rfl⟩ := Option.map_eq_some_iff.1 h
      obtain ⟨id, hf, rfl⟩ := objectBinding?_rest h
      cases hf
      exact .rest id
  · rintro (⟨id, value⟩ | ⟨hkey, hvalue⟩ | id)
    · rfl
    · simp [objectBinding?, fieldKey?_eq_some_iff.2 hkey, simpleTarget?_eq_some_iff.2 hvalue]
    · rfl

theorem placed_cons (start : Nat) (p : Pattern) (items : List Pattern) :
    placed start (p :: items) =
      if isHole p then placed (start + 1) items else (p, start) :: placed (start + 1) items := by
  cases h : isHole p <;> simp [placed, List.zipIdx_cons, h]

/-- The bindings of an array are those of its items at their places. -/
theorem arrayBindings?_eq_some_iff {start : Nat} :
    arrayBindings? start items = some bs ↔ List.Forall₂ ItemBinds (placed start items) bs := by
  induction items generalizing start bs with
  | nil => simp [arrayBindings?, placed, eq_comm]
  | cons item items ih =>
    rw [placed_cons]
    constructor
    · intro h
      obtain ⟨tail, htail, hcases⟩ := arrayBindings?_cons h
      have hrest := ih.1 htail
      rcases hcases with ⟨rfl, rfl⟩ | ⟨id, rfl, rfl⟩ | ⟨target, default, htarget, rfl⟩
      · exact hrest
      · exact .cons (.rest id start) hrest
      · have hhole : isHole item = false := by
          have hfield := isField_of_simpleTarget? htarget
          simp only [isField, Bool.and_eq_true, Bool.not_eq_true'] at hfield
          exact hfield.1
        rw [hhole]
        exact .cons (.field start (simpleTarget?_eq_some_iff.1 htarget)) hrest
    · intro h
      by_cases hhole : isHole item
      · rw [if_pos hhole] at h
        cases item with
        | hole => exact ih.2 h
        | _ => cases hhole
      · rw [if_neg hhole] at h
        cases h with
        | cons hitem hrest =>
          have htail := ih.2 hrest
          cases hitem with
          | field _ htarget => cases htarget <;> simp [arrayBindings?, simpleTarget?, htail]
          | rest id => simp [arrayBindings?, restTarget?, htail]

/-- The plan of a pattern is told by its elements. -/
theorem plan?_eq_some_iff {plan : Plan} :
    plan? source p = some plan ↔ PlanOf source p plan := by
  have hfields {fields : List PatternField} {bs : List Binding} :
      fields.mapM (objectBinding? source) = some bs ↔
        List.Forall₂ (FieldBinds source) fields bs := by
    rw [mapM_eq_some_iff, ← List.forall₂_eq_eq_eq, List.forall₂_map_left_iff,
      List.forall₂_map_right_iff]
    simp only [objectBinding?_eq_some_iff]
  constructor
  · intro h
    cases p with
    | object span fields =>
      obtain ⟨bs, hbs, rfl⟩ := Option.map_eq_some_iff.1 h
      exact .object span (hfields.1 hbs)
    | array span items =>
      obtain ⟨bs, hbs, rfl⟩ := Option.map_eq_some_iff.1 h
      exact .array span (arrayBindings?_eq_some_iff.1 hbs)
    | _ => cases h
  · rintro (⟨span, hbs⟩ | ⟨span, hbs⟩)
    · simp [plan?, hfields.2 hbs]
    · simp [plan?, arrayBindings?_eq_some_iff.2 hbs]

/-! ### Which patterns have a plan -/

theorem exists_forall₂_iff {α β : Type} {R : α → β → Prop} {l : List α} :
    (∃ r, List.Forall₂ R l r) ↔ ∀ a ∈ l, ∃ b, R a b := by
  induction l with
  | nil => simp
  | cons a l ih => simp [List.forall₂_cons_left_iff, ← ih]

theorem exists_targets_iff :
    (∃ target default, Targets p target default) ↔ IsTarget p := by
  constructor
  · rintro ⟨_, _, (id | ⟨id, value⟩)⟩
    · exact .name id
    · exact .default id value
  · rintro (id | ⟨id, value⟩)
    · exact ⟨_, _, .name id⟩
    · exact ⟨_, _, .default id value⟩

/-- Exactly the plain fields can be unpacked. -/
theorem exists_fieldBinds_iff {f : PatternField} :
    (∃ b, FieldBinds source f b) ↔ IsPlainField f := by
  constructor
  · rintro ⟨_, (⟨id, value⟩ | ⟨hkey, hvalue⟩ | id)⟩
    · exact .shorthand id value
    · refine .pair ?_ (exists_targets_iff.1 ⟨_, _, hvalue⟩)
      cases hkey with
      | name id => exact .name id
      | string span => exact .string span
      | number span => exact .number span
    · exact .rest id
  · rintro (⟨id, value⟩ | ⟨hkey, hvalue⟩ | id)
    · exact ⟨_, .shorthand id value⟩
    · obtain ⟨target, default, hvalue⟩ := exists_targets_iff.2 hvalue
      cases hkey with
      | name id => exact ⟨_, .pair (.name id) hvalue⟩
      | string span => exact ⟨_, .pair (.string span) hvalue⟩
      | number span => exact ⟨_, .pair (.number span) hvalue⟩
    · exact ⟨_, .rest id⟩

theorem exists_itemBinds_iff {place : Nat} (hp : isHole p = false) :
    (∃ b, ItemBinds (p, place) b) ↔ IsPlainItem p := by
  constructor
  · rintro ⟨_, (⟨_, htarget⟩ | id)⟩
    · exact .target (exists_targets_iff.1 ⟨_, _, htarget⟩)
    · exact .rest id
  · rintro (_ | htarget | id)
    · cases hp
    · obtain ⟨target, default, htarget⟩ := exists_targets_iff.2 htarget
      exact ⟨_, .field place htarget⟩
    · exact ⟨_, .rest id place⟩

/-- Exactly the plain items can be unpacked, wherever they stand. -/
theorem exists_placed_iff :
    (∀ item ∈ placed 0 items, ∃ b, ItemBinds item b) ↔ ∀ p ∈ items, IsPlainItem p := by
  constructor
  · intro h p hp
    cases hhole : isHole p with
    | true =>
      cases p with
      | hole => exact .hole
      | _ => cases hhole
    | false =>
      obtain ⟨place, hplace⟩ := List.mem_iff_getElem?.1 hp
      have hmem : (p, place) ∈ placed 0 items :=
        List.mem_filter.2 ⟨List.mk_mem_zipIdx_iff_getElem?.2 hplace, by simp [hhole]⟩
      exact (exists_itemBinds_iff hhole).1 (h _ hmem)
  · rintro h ⟨p, place⟩ hitem
    obtain ⟨hmem, hhole⟩ := List.mem_filter.1 hitem
    have hp := List.mem_of_getElem? (List.mk_mem_zipIdx_iff_getElem?.1 hmem)
    exact (exists_itemBinds_iff (by simpa using hhole)).2 (h p hp)

/-- There is a plan exactly for the patterns that are plain throughout. -/
theorem exists_planOf_iff {p : Pattern} : (∃ plan, PlanOf source p plan) ↔ Unpackable p := by
  constructor
  · rintro ⟨_, (⟨span, hbs⟩ | ⟨span, hbs⟩)⟩
    · refine .object span fun f hf => ?_
      exact exists_fieldBinds_iff.1 (exists_forall₂_iff.1 ⟨_, hbs⟩ f hf)
    · exact .array span (exists_placed_iff.1 (exists_forall₂_iff.1 ⟨_, hbs⟩))
  · rintro (@⟨span, fields, h⟩ | ⟨span, h⟩)
    · have hbind : ∀ f ∈ fields, ∃ b, FieldBinds source f b := fun f hf =>
        exists_fieldBinds_iff.2 (h f hf)
      obtain ⟨bs, hbs⟩ := exists_forall₂_iff.2 hbind
      exact ⟨_, .object span hbs⟩
    · obtain ⟨bs, hbs⟩ := exists_forall₂_iff.2 (exists_placed_iff.2 h)
      exact ⟨_, .array span hbs⟩

/-! ### The names of a plan -/

def Binding.key? : Binding → Option FieldKey
  | field _ key _ => some key
  | rest _ => none

def Plan.restNames (p : Plan) : List String :=
  p.bindings.filterMap fun
    | .field _ _ _ => none
    | .rest target => some target

theorem take_one_restNames (plan : Plan) : plan.restNames.take 1 = plan.restName?.toList := by
  rw [List.take_one, Plan.restNames, List.head?_filterMap]
  rfl

theorem Targets.boundNames {target : String} {default : Option Span}
    (h : Targets p target default) : Walk.boundNames p = [target] := by
  cases h <;> simp [Walk.boundNames]

theorem fieldNames_of_fieldBinds {fields : List PatternField}
    (h : List.Forall₂ (FieldBinds source) fields bs) :
    Walk.fieldNames fields = bs.map Binding.target := by
  induction h with
  | nil => rfl
  | cons hf _ ih =>
    cases hf with
    | shorthand id value => simp [Walk.fieldNames, ih, Binding.target]
    | pair _ hvalue => simp [Walk.fieldNames, ih, hvalue.boundNames, Binding.target]
    | rest id => simp [Walk.fieldNames, ih, Walk.boundNames, Binding.target]

/-- Unpacking an array declares the names that its pattern binds. -/
theorem boundNamesAll_of_itemBinds {start : Nat}
    (h : List.Forall₂ ItemBinds (placed start items) bs) :
    Walk.boundNamesAll items = bs.map Binding.target := by
  induction items generalizing start bs with
  | nil =>
    cases h
    rfl
  | cons item items ih =>
    rw [placed_cons] at h
    split at h
    · next hhole =>
      cases item with
      | hole => simpa [Walk.boundNamesAll, Walk.boundNames] using ih h
      | _ => cases hhole
    · cases h with
      | cons hitem hrest =>
        cases hitem with
        | field _ htarget => simp [Walk.boundNamesAll, htarget.boundNames, ih hrest, Binding.target]
        | rest id => simp [Walk.boundNamesAll, Walk.boundNames, ih hrest, Binding.target]

/-- A plan binds the names of its pattern, in order. -/
theorem targets_of_planOf {plan : Plan} (h : PlanOf source p plan) :
    plan.bindings.map Binding.target = Walk.boundNames p := by
  cases h with
  | object span hbs => rw [Walk.boundNames, fieldNames_of_fieldBinds hbs]
  | array span hbs => rw [Walk.boundNames, boundNamesAll_of_itemBinds hbs]

/-- Each name is either to be unwrapped or ordinary. -/
theorem names_perm_targets (plan : Plan) :
    (plan.fieldNames ++ plan.restNames).Perm (plan.bindings.map Binding.target) := by
  obtain ⟨shape, span, bs⟩ := plan
  induction bs with
  | nil => rfl
  | cons b bs ih =>
    cases b with
    | field target key default => exact ih.cons target
    | rest target => exact List.perm_middle.trans (ih.cons target)

/-! ### The declarations of a plan -/

def declared (source : List Char) (shape : Shape) (b : List Binding × Binding) : Derived :=
  match b.2 with
  | .field target key default => .field target key.argument (default.map (spanText source))
  | .rest target => .rest target ((b.1.filterMap Binding.key?).map FieldKey.excluded) shape

/-- Each declaration is made with the keys of the bindings in front of it. -/
theorem derivedFrom_eq (shape : Shape) (front bs : List Binding) :
    derivedFrom source shape (front.filterMap Binding.key?) bs =
      (fronts front bs).map (declared source shape) := by
  induction bs generalizing front with
  | nil => rfl
  | cons b bs ih =>
    have hnext := ih (front ++ [b])
    cases b with
    | field target key default =>
      simp only [List.filterMap_append, List.filterMap_cons, List.filterMap_nil,
        Binding.key?] at hnext
      simp [derivedFrom, fronts, declared, hnext]
    | rest target =>
      simp only [List.filterMap_append, List.filterMap_cons, List.filterMap_nil, Binding.key?,
        List.append_nil] at hnext
      simp [derivedFrom, fronts, declared, hnext]

def Derived.target : Derived → String
  | field target _ _ => target
  | rest target _ _ => target

theorem target_declared (shape : Shape) (b : List Binding × Binding) :
    (declared source shape b).target = b.2.target := by
  obtain ⟨front, target | target⟩ := b
  · rfl
  · rfl

theorem map_snd_fronts {α : Type} (front l : List α) : (fronts front l).map Prod.snd = l := by
  induction l generalizing front with
  | nil => rfl
  | cons a l ih => rw [fronts, List.map_cons, ih]

/-- Planning and binding agree. A pattern has a plan exactly if it is an object or an array of
names, names with defaults, plain keys, holes and rests that are names. The plan then has one
binding for each element, with the place of an item as its key; the bindings have the names that the
pattern binds, in order; and behind the temporary each of them becomes one declaration, with the
text of its default, or with the keys of all fields in front of a rest. So each name is declared, to
be unwrapped or as an ordinary one, and so a run declares them in its scopes. Of several rests, which
no well-formed pattern has, the run declares the first. -/
theorem unpacking_declares_boundNames (source : List Char) (p : Pattern) :
    ((∃ plan, plan? source p = some plan) ↔ Unpackable p) ∧
    ∀ plan, plan? source p = some plan →
      PlanOf source p plan ∧
      plan.bindings.map Binding.target = Walk.boundNames p ∧
      (∀ temp, plan.render source temp =
        String.join ((plan.derived source).map (Derived.text temp))) ∧
      plan.derived source = (fronts [] plan.bindings).map (declared source plan.shape) ∧
      (plan.derived source).map Derived.target = Walk.boundNames p ∧
      (plan.fieldNames ++ plan.restNames).Perm (Walk.boundNames p) ∧
      ∀ (r : Walk.Run) (frame stop : Nat), (r.unpack source frame plan stop).scopes =
        (plan.restNames.take 1).foldl (fun s name => s.declareKnown frame name)
          (plan.fieldNames.foldl (fun s name => s.declareUnwrap frame name) r.scopes) := by
  constructor
  · simp only [plan?_eq_some_iff, exists_planOf_iff]
  · intro plan hplan
    have hof := plan?_eq_some_iff.1 hplan
    have htargets := targets_of_planOf hof
    have hderived :
        plan.derived source = (fronts [] plan.bindings).map (declared source plan.shape) :=
      derivedFrom_eq plan.shape [] plan.bindings
    refine ⟨hof, htargets, fun temp => render_eq source temp plan, hderived, ?_, ?_, ?_⟩
    · rw [hderived, List.map_map, ← htargets]
      conv_rhs => rw [← map_snd_fronts [] plan.bindings, List.map_map]
      exact List.map_congr_left fun b _ => target_declared plan.shape b
    · rw [← htargets]
      exact names_perm_targets plan
    · intro r frame stop
      rw [Walk.Run.unpack_eq, take_one_restNames]

/-- A hole takes up the place between the first name and the third. -/
theorem unpacking_declares_boundNames_hole :
    ∃ (p : Pattern) (plan : Plan),
      plan? "let [a, , b = 3, ...c] = $x()".toList p = some plan ∧ Unpackable p ∧
      Walk.boundNames p = ["a", "b", "c"] ∧
      plan.bindings.map Binding.target = Walk.boundNames p ∧
      plan.render "let [a, , b = 3, ...c] = $x()".toList "t" =
        "\n,a = __rfx_toRef(t, 0)\n,b = __rfx_toRef(t, 2, 3)" ++
          "\n,c = Object.values(__rfx_createPropsRestProxy(t, ['0', '2']))" := by
  let p : Pattern := .array ⟨4, 22⟩ [.name ⟨"a", ⟨5, 6⟩⟩, .hole,
    .default (.name ⟨"b", ⟨10, 11⟩⟩) (.compound ⟨14, 15⟩ .literal []),
    .rest (.name ⟨"c", ⟨20, 21⟩⟩)]
  have hplan : plan? "let [a, , b = 3, ...c] = $x()".toList p = some ⟨.array, ⟨4, 22⟩,
      [.field "a" (.index 0) none, .field "b" (.index 2) (some ⟨14, 15⟩), .rest "c"]⟩ := by decide
  have hall := unpacking_declares_boundNames "let [a, , b = 3, ...c] = $x()".toList p
  exact ⟨p, _, hplan, hall.1.1 ⟨_, hplan⟩, by decide, (hall.2 _ hplan).2.1, by decide⟩

end RefSugar.Unpack

import RefSugar.Proofs.Areas

/-! The names that a walk reads off patterns, parameters, declared values and plans are those of the
identifiers that the tree binds. -/
namespace RefSugar.Lexical

open Syntax Walk

variable {p : Pattern} {f : PatternField}

/-! ### Names -/

section Names

variable {id : Ident} {name : String}

/-- An object pattern binds what its fields bind. -/
theorem binds_object {span : Span} {fields : List PatternField} :
    Binds (.object span fields) id ↔ ∃ f ∈ fields, BindsField id f := by
  constructor
  · intro h
    cases h with
    | shorthand h => exact ⟨_, h, rfl⟩
    | pair h hid | restField h hid => exact ⟨_, h, hid⟩
  · rintro ⟨f, hf, hid⟩
    cases f with
    | shorthand own value =>
      obtain rfl : own = id := hid
      exact .shorthand hf
    | pair key value => exact .pair hf hid
    | rest target => exact .restField hf hid

theorem binds_array {span : Span} {items : List Pattern} :
    Binds (.array span items) id ↔ ∃ p ∈ items, Binds p id := by
  constructor
  · intro h
    cases h with
    | item h hid => exact ⟨_, h, hid⟩
  · rintro ⟨p, hp, hid⟩
    exact .item hp hid

theorem binds_default {target : Pattern} {value : Expr} :
    Binds (.default target value) id ↔ Binds target id :=
  ⟨fun h => by cases h; assumption, .default⟩

theorem binds_rest {target : Pattern} : Binds (.rest target) id ↔ Binds target id :=
  ⟨fun h => by cases h; assumption, .rest⟩

theorem binds_name {own : Ident} : Binds (.name own) id ↔ id = own :=
  ⟨fun h => by cases h; rfl, fun h => h ▸ .name own⟩

mutual

/-- The names of a pattern are those of the identifiers that it binds. -/
theorem mem_boundNames (p : Pattern) : name ∈ boundNames p ↔ ∃ id, Binds p id ∧ id.name = name := by
  cases p with
  | name own => simp [boundNames, binds_name, eq_comm]
  | object span fields =>
    rw [boundNames, mem_fieldNames fields]
    simp only [binds_object]
    grind
  | array span items =>
    rw [boundNames, mem_boundNamesAll items]
    simp only [binds_array]
    grind
  | default target value =>
    rw [boundNames, mem_boundNames target]
    simp only [binds_default]
  | rest target =>
    rw [boundNames, mem_boundNames target]
    simp only [binds_rest]
  | expr e | hole | invalid =>
    refine iff_of_false (by simp [boundNames]) ?_
    rintro ⟨id, hid, _⟩
    cases hid

theorem mem_boundNamesAll (ps : List Pattern) :
    name ∈ boundNamesAll ps ↔ ∃ p ∈ ps, ∃ id, Binds p id ∧ id.name = name := by
  match ps with
  | [] => simp [boundNamesAll]
  | p :: ps =>
    rw [boundNamesAll, List.mem_append, mem_boundNames p, mem_boundNamesAll ps]
    simp

theorem mem_fieldNames (fields : List PatternField) :
    name ∈ fieldNames fields ↔ ∃ f ∈ fields, ∃ id, BindsField id f ∧ id.name = name := by
  match fields with
  | [] => simp [fieldNames]
  | .shorthand own value :: fields =>
    rw [fieldNames, List.mem_cons, mem_fieldNames fields]
    simp [BindsField, eq_comm]
  | .pair key target :: fields =>
    rw [fieldNames, List.mem_append, mem_boundNames target, mem_fieldNames fields]
    simp [BindsField]
  | .rest target :: fields =>
    rw [fieldNames, List.mem_append, mem_boundNames target, mem_fieldNames fields]
    simp [BindsField]

end

theorem mem_paramNames (params : List Param) :
    name ∈ paramNames params ↔
      ∃ p ∈ params.map Param.pattern, ∃ id, Binds p id ∧ id.name = name := by
  induction params with
  | nil => simp [paramNames]
  | cons p params ih =>
    obtain ⟨decorators, pattern⟩ := p
    rw [paramNames, List.mem_append, mem_boundNames, ih]
    simp [Param.pattern]

end Names

/-! ### Declared variables -/

section Declarators

variable {s : Setting} {source : List Char} {id : Ident} {name : String}

/-- The callee is found through parentheses and assertions, and through nothing else. -/
theorem declaredCallee?_eq_some_iff {e callee : Expr} :
    declaredCallee? e = some callee ↔ IsCallOf e callee := by
  constructor
  · intro h
    fun_induction declaredCallee? e with
    | case1 span callee' args =>
      cases h
      exact .call
    | case2 span inner ih => exact .parens (ih h)
    | case3 span inner ih => exact .nonNull (ih h)
    | case4 => cases h
  · intro h
    induction h with
    | call => rfl
    | parens _ ih | nonNull _ ih => exact ih

theorem isUnwrapCall_iff {ignore : List String} {text : List Char} :
    Sigil.isUnwrapCall ignore (String.ofList text) = true ↔
      ∃ word, text = '$' :: word ∧ word ≠ ['$'] ∧ String.ofList word ∉ ignore := by
  rw [Sigil.isUnwrapCall, String.toList_ofList]
  split
  · simp
  · rename_i h
    refine iff_of_false (by simp) ?_
    rintro ⟨word, htext, _⟩
    exact h word htext

/-- A value is unwrapped if it gives a reference. -/
theorem unwrapCallee?_some {value : Expr} :
    (∃ callee, unwrapCallee? s (some value) = some callee) ↔ GivesRef s.source s.ignore value := by
  simp only [unwrapCallee?, Option.bind_some, Option.filter_eq_some_iff, declaredCallee?_eq_some_iff,
    Setting.text, isUnwrapCall_iff, GivesRef]
  grind

def targetName? : Pattern → Option String
  | .name id | .default (.name id) _ => some id.name
  | _ => none

def fieldName? : PatternField → Option String
  | .shorthand id _ => some id.name
  | .pair _ value => targetName? value
  | .rest _ => none

def itemRest? : Pattern → Option String
  | .rest (.name id) => some id.name
  | _ => none

def fieldRest? : PatternField → Option String
  | .rest (.name id) => some id.name
  | _ => none

theorem targets_name {target : String} {default : Option Span}
    (h : Unpack.Targets p target default) : targetName? p = some target ∧ itemRest? p = none := by
  cases h with
  | name id | default id value => exact ⟨rfl, rfl⟩

/-- A plain item that is no rest declares the one name it binds. -/
theorem targetName?_eq_some_iff (h : Unpack.IsPlainItem p) :
    targetName? p = some name ↔ ¬ IsRest p ∧ ∃ id, Binds p id ∧ id.name = name := by
  cases h with
  | hole =>
    refine iff_of_false (by simp [targetName?]) ?_
    rintro ⟨_, id, hid, _⟩
    cases hid
  | target h =>
    cases h with
    | name id => simp [targetName?, IsRest, binds_name]
    | default id value => simp [targetName?, IsRest, binds_default, binds_name]
  | rest id => simp [targetName?, IsRest]

theorem fieldName?_eq_some_iff (h : Unpack.IsPlainField f) :
    fieldName? f = some name ↔ ¬ IsRestField f ∧ ∃ id, BindsField id f ∧ id.name = name := by
  cases h with
  | shorthand id value => simp [fieldName?, IsRestField, BindsField]
  | @pair key value hkey hvalue =>
    have hrest : ¬ IsRest value := by cases hvalue <;> exact not_false
    simp [fieldName?, IsRestField, BindsField, targetName?_eq_some_iff (.target hvalue), hrest]
  | rest id => simp [fieldName?, IsRestField]

theorem itemRest?_eq_some_iff :
    itemRest? p = some name ↔ ∃ id, p = .rest (.name id) ∧ id.name = name := by
  unfold itemRest?
  split <;> simp_all

theorem fieldRest?_eq_some_iff :
    fieldRest? f = some name ↔ ∃ id, f = .rest (.name id) ∧ id.name = name := by
  unfold fieldRest?
  split <;> simp_all

theorem itemRest?_eq_none_iff (h : Unpack.IsPlainItem p) :
    itemRest? p = none ↔ ¬ IsRest p := by
  cases h with
  | hole => simp [itemRest?, IsRest]
  | target h => cases h <;> simp [itemRest?, IsRest]
  | rest id => simp [itemRest?, IsRest]

theorem fieldRest?_eq_none_iff (h : Unpack.IsPlainField f) :
    fieldRest? f = none ↔ ¬ IsRestField f := by
  cases h <;> simp [fieldRest?, IsRestField]

/-- The names of a plan, field by field. -/
theorem names_of_fieldBinds {fields : List PatternField} {bs : List Unpack.Binding}
    (shape : Unpack.Shape) (span : Span) (h : List.Forall₂ (Unpack.FieldBinds source) fields bs) :
    Unpack.Plan.fieldNames ⟨shape, span, bs⟩ = fields.filterMap fieldName? ∧
      Unpack.Plan.restName? ⟨shape, span, bs⟩ = fields.findSome? fieldRest? := by
  simp only [Unpack.Plan.fieldNames, Unpack.Plan.restName?]
  induction h with
  | nil => exact ⟨rfl, rfl⟩
  | cons hf _ ih =>
    cases hf with
    | shorthand id value =>
      simp [List.findSome?_cons, fieldName?, fieldRest?, ih]
    | pair hkey hvalue =>
      simp [List.findSome?_cons, fieldName?, fieldRest?,
        (targets_name hvalue).1, ih]
    | rest id => simp [List.filterMap_cons, List.findSome?_cons, fieldName?, fieldRest?, ih]

/-- The names of a plan are those of the items it was made for. -/
theorem names_of_itemBinds {start : Nat} {items : List Pattern} {bs : List Unpack.Binding}
    (shape : Unpack.Shape) (span : Span)
    (h : List.Forall₂ Unpack.ItemBinds (Unpack.placed start items) bs) :
    Unpack.Plan.fieldNames ⟨shape, span, bs⟩ = items.filterMap targetName? ∧
      Unpack.Plan.restName? ⟨shape, span, bs⟩ = items.findSome? itemRest? := by
  induction items generalizing start bs with
  | nil =>
    cases h
    exact ⟨rfl, rfl⟩
  | cons item items ih =>
    rw [Unpack.placed_cons] at h
    split at h
    · rename_i hhole
      cases item with
      | hole => simpa [List.filterMap_cons, List.findSome?_cons, targetName?, itemRest?] using ih h
      | _ => cases hhole
    · cases h with
      | cons hitem hrest =>
        obtain ⟨hfields, hrests⟩ := ih hrest
        simp only [Unpack.Plan.fieldNames, Unpack.Plan.restName?] at hfields hrests ⊢
        cases hitem with
        | field _ htarget =>
          obtain ⟨hname, hnone⟩ := targets_name htarget
          simp [hname, hnone, hfields, hrests]
        | rest id => simp [List.filterMap_cons, List.findSome?_cons, targetName?, itemRest?, hfields]

/-- The fields of a plan are the names to unwrap. -/
theorem mem_plan_fieldNames {plan : Unpack.Plan} (h : Unpack.PlanOf source p plan) :
    name ∈ plan.fieldNames ↔ ∃ id, Unpacks p .unwrap id ∧ id.name = name := by
  have hplain := Unpack.exists_planOf_iff.mp ⟨plan, h⟩
  cases h with
  | @object span fields bs hbs =>
    have hfields : ∀ f ∈ fields, Unpack.IsPlainField f := by
      cases hplain
      assumption
    rw [(names_of_fieldBinds _ _ hbs).1, List.mem_filterMap]
    constructor
    · rintro ⟨f, hf, hname⟩
      obtain ⟨hrest, id, hid, hname⟩ := (fieldName?_eq_some_iff (hfields f hf)).mp hname
      exact ⟨id, .field hf hrest hid, hname⟩
    · rintro ⟨id, hid, hname⟩
      cases hid with
      | field hf hrest hid =>
        exact ⟨_, hf, (fieldName?_eq_some_iff (hfields _ hf)).mpr ⟨hrest, id, hid, hname⟩⟩
  | @array span items bs hbs =>
    have hitems : ∀ p ∈ items, Unpack.IsPlainItem p := by
      cases hplain
      assumption
    rw [(names_of_itemBinds _ _ hbs).1, List.mem_filterMap]
    constructor
    · rintro ⟨p, hp, hname⟩
      obtain ⟨hrest, id, hid, hname⟩ := (targetName?_eq_some_iff (hitems p hp)).mp hname
      exact ⟨id, .item hp hrest hid, hname⟩
    · rintro ⟨id, hid, hname⟩
      cases hid with
      | item hp hrest hid =>
        exact ⟨_, hp, (targetName?_eq_some_iff (hitems _ hp)).mpr ⟨hrest, id, hid, hname⟩⟩

/-- The rest of a plan is an ordinary name. -/
theorem plan_restName?_iff {plan : Unpack.Plan} (h : Unpack.PlanOf source p plan) :
    plan.restName? = some name ↔ ∃ id, Unpacks p .known id ∧ id.name = name := by
  have hplain := Unpack.exists_planOf_iff.mp ⟨plan, h⟩
  cases h with
  | @object span fields bs hbs =>
    have hfields : ∀ f ∈ fields, Unpack.IsPlainField f := by
      cases hplain
      assumption
    rw [(names_of_fieldBinds _ _ hbs).2, List.findSome?_eq_some_iff]
    constructor
    · rintro ⟨front, f, back, rfl, hf, hfront⟩
      obtain ⟨id, rfl, hname⟩ := fieldRest?_eq_some_iff.mp hf
      refine ⟨id, .restField fun f hf => ?_, hname⟩
      exact (fieldRest?_eq_none_iff (hfields f (by simp [hf]))).mp (hfront f hf)
    · rintro ⟨id, hid, hname⟩
      cases hid with
      | restField hfront =>
        refine ⟨_, _, _, rfl, fieldRest?_eq_some_iff.mpr ⟨id, rfl, hname⟩, fun f hf => ?_⟩
        exact (fieldRest?_eq_none_iff (hfields f (by simp [hf]))).mpr (hfront f hf)
  | @array span items bs hbs =>
    have hitems : ∀ p ∈ items, Unpack.IsPlainItem p := by
      cases hplain
      assumption
    rw [(names_of_itemBinds _ _ hbs).2, List.findSome?_eq_some_iff]
    constructor
    · rintro ⟨front, p, back, rfl, hp, hfront⟩
      obtain ⟨id, rfl, hname⟩ := itemRest?_eq_some_iff.mp hp
      refine ⟨id, .restItem fun p hp => ?_, hname⟩
      exact (itemRest?_eq_none_iff (hitems p (by simp [hp]))).mp (hfront p hp)
    · rintro ⟨id, hid, hname⟩
      cases hid with
      | restItem hfront =>
        refine ⟨_, _, _, rfl, itemRest?_eq_some_iff.mpr ⟨id, rfl, hname⟩, fun p hp => ?_⟩
        exact (itemRest?_eq_none_iff (hitems p (by simp [hp]))).mpr (hfront p hp)

end Declarators

end RefSugar.Lexical

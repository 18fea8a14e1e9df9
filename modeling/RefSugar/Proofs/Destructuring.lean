import RefSugar.Proofs.PropertyKeys
import RefSugar.Unpack
import Mathlib.Data.List.Basic

/-!
Taking values apart. Destructuring and unpacking are both described by what each name gets to hold
out of the value, with the text of the default that steps in where nothing is held; defaults are
then evaluated from left to right. For destructuring this is read off the pattern, and for unpacking
off the declarations behind the temporary.
-/
namespace RefSugar.Unpack

open Syntax

variable {V : Type}

abbrev Props (V : Type) := List (String × V)

def Props.without (props : Props V) (keys : List String) : Props V :=
  props.filter fun p => !keys.contains p.1

def Props.ofArray (items : List V) : Props V :=
  items.zipIdx.map fun p => (toString p.2, p.1)

inductive Source (V : Type) where
  | object (props : Props V)
  | array (items : List V)

def Source.props : Source V → Props V
  | object props => props
  | array items => .ofArray items

def Source.Fits : Source V → Pattern → Prop
  | array _, .array _ _ => True
  | _, .object _ _ => True
  | _, _ => False

/-- What a name is bound to. A value that is not there is `none`. -/
inductive Bound (V : Type) where
  | value (v : Option V)
  | object (props : Props V)
  | array (items : List V)

/-- What a name gets to hold, and the text of its default. -/
structure Local (V : Type) where
  name : String
  held : Bound V
  default : Option String

abbrev Env (V : Type) := List (String × Bound V)

def Local.settle (default : String → V) (l : Local V) : Bound V :=
  match l.held, l.default with
  | .value none, some text => .value (some (default text))
  | held, _ => held

/-- Binds names from left to right. A default sees the names in front of it. -/
def bindAll (defaults : Env V → String → V) (env : Env V) : List (Local V) → Env V
  | [] => env
  | l :: ls => bindAll defaults (env ++ [(l.name, l.settle (defaults env))]) ls

def fronts {α : Type} (front : List α) : List α → List (List α × α)
  | [] => []
  | a :: as => (front, a) :: fronts (front ++ [a]) as

/-- An element stands with exactly those in front of it. -/
theorem mem_fronts {α : Type} {front l : List α} {e : List α × α} :
    e ∈ fronts front l ↔ ∃ before after, l = before ++ e.2 :: after ∧ e.1 = front ++ before := by
  induction l generalizing front with
  | nil => simp [fronts]
  | cons a l ih =>
    rw [fronts, List.mem_cons, ih]
    constructor
    · rintro (rfl | ⟨before, after, rfl, he⟩)
      · exact ⟨[], l, rfl, by simp⟩
      · exact ⟨a :: before, after, rfl, by simpa using he⟩
    · rintro ⟨before, after, hl, he⟩
      cases before with
      | nil =>
        left
        cases hl
        rw [← List.append_nil front, ← he]
      | cons b before =>
        right
        cases hl
        exact ⟨before, after, rfl, by simpa using he⟩

/-! ### Destructuring -/

section Destructuring

variable (other : String → String) (source : List Char)

def exprText (e : Expr) : String :=
  String.ofList (textUnder source e.span)

/-- The property key that a key of a pattern denotes. A name does not have quotes, backslashes or
line ends in it. -/
def keyOf? : Key → Option String
  | .name id => if id.name.toList.all PropertyKey.isPlain then some id.name else none
  | .string span => PropertyKey.string? (textUnder source span)
  | .number span =>
    if PropertyKey.isNumeric (textUnder source span) then
      some (PropertyKey.number other (String.ofList (textUnder source span)))
    else none
  | .computed _ | .other => none

def fieldKey : PatternField → Option Key
  | .shorthand id _ => some (.name id)
  | .pair key _ => some key
  | .rest _ => none

/-- What the name in a field holds, if keys denote what `key?` says. A rest holds what the fields in
front of it leave. -/
def fieldLocal? (key? : Key → Option String) (props : Props V)
    (field : List PatternField × PatternField) : Option (Local V) :=
  match field.2 with
  | .shorthand id value =>
    (key? (.name id)).map fun key =>
      ⟨id.name, .value (props.lookup key), value.map (exprText source)⟩
  | .pair key (.name id) =>
    (key? key).map fun key => ⟨id.name, .value (props.lookup key), none⟩
  | .pair key (.default (.name id) value) =>
    (key? key).map fun key =>
      ⟨id.name, .value (props.lookup key), some (exprText source value)⟩
  | .rest (.name id) =>
    ((field.1.filterMap fieldKey).mapM key?).map fun keys =>
      ⟨id.name, .object (props.without keys), none⟩
  | _ => none

/-- What the name at a place holds. A rest holds all elements from its own place on. -/
def itemLocal? (items : List V) (item : List Pattern × Pattern) : Option (Local V) :=
  match item.2 with
  | .name id => some ⟨id.name, .value items[item.1.length]?, none⟩
  | .default (.name id) value =>
    some ⟨id.name, .value items[item.1.length]?, some (exprText source value)⟩
  | .rest (.name id) => some ⟨id.name, .array (items.drop item.1.length), none⟩
  | _ => none

def isHole : Pattern → Bool
  | .hole => true
  | _ => false

def places (items : List Pattern) : List (List Pattern × Pattern) :=
  (fronts [] items).filter fun item => !isHole item.2

/-- What the names of a pattern hold once a value has been taken apart. -/
def locals? : Pattern → Source V → Option (List (Local V))
  | .object _ fields, src =>
    (fronts [] fields).mapM (fieldLocal? source (keyOf? other source) src.props)
  | .array _ items, .array values => (places items).mapM (itemLocal? source values)
  | _, _ => none

def destructure? (defaults : Env V → String → V) (p : Pattern) (src : Source V) :
    Option (Env V) :=
  (locals? other source p src).map (bindAll defaults [])

end Destructuring

/-! ### Unpacking -/

def Binding.target : Binding → String
  | .field target _ _ | .rest target => target

/-- A declaration behind the temporary. Keys and defaults are pieces of program text. -/
inductive Derived where
  | field (target key : String) (default : Option String)
  | rest (target : String) (keys : List String) (shape : Shape)

namespace Derived

def text (temp : String) : Derived → String
  | field target key default =>
    "\n," ++ target ++ " = " ++ Primitive.toRef.localName ++ "(" ++ temp ++ ", " ++ key ++
      (match default with
        | none => ""
        | some text => ", " ++ text) ++ ")"
  | rest target keys shape =>
    let proxy := Primitive.restProxy.localName ++ "(" ++ temp ++ ", [" ++
      ", ".intercalate keys ++ "])"
    "\n," ++ target ++ " = " ++
      match shape with
      | .object => proxy
      | .array => "Object.values(" ++ proxy ++ ")"

def local? (other : String → String) (props : Props V) : Derived → Option (Local V)
  | field target key default =>
    (PropertyKey.ofLiteral? other key).map fun key =>
      ⟨target, .value (props.lookup key), default⟩
  | rest target keys shape =>
    (keys.mapM (PropertyKey.ofLiteral? other)).map fun keys =>
      match shape with
      | .object => ⟨target, .object (props.without keys), none⟩
      | .array => ⟨target, .array ((props.without keys).map Prod.snd), none⟩

end Derived

def evaluate? (other : String → String) (defaults : Env V → String → V) (props : Props V)
    (ds : List Derived) : Option (Env V) :=
  (ds.mapM (Derived.local? other props)).map (bindAll defaults [])

def spanText (source : List Char) (span : Span) : String :=
  String.ofList (textUnder source span)

/-- The declarations of bindings; `seen` are the keys of the fields in front of them. -/
def derivedFrom (source : List Char) (shape : Shape) : List FieldKey → List Binding → List Derived
  | _, [] => []
  | seen, .field target key default :: bs =>
    .field target key.argument (default.map (spanText source)) ::
      derivedFrom source shape (seen ++ [key]) bs
  | seen, .rest target :: bs =>
    .rest target (seen.map FieldKey.excluded) shape :: derivedFrom source shape seen bs

def Plan.derived (source : List Char) (plan : Plan) : List Derived :=
  derivedFrom source plan.shape [] plan.bindings

/-- The printed declarations are those that are evaluated. -/
theorem declarations_eq (source : List Char) (shape : Shape) (temp : String)
    (seen : List FieldKey) (bs : List Binding) :
    Plan.declarations source shape temp seen bs =
      (derivedFrom source shape seen bs).map (Derived.text temp) := by
  induction bs generalizing seen with
  | nil => rfl
  | cons b bs ih =>
    cases b with
    | field target key default =>
      rw [Plan.declarations, derivedFrom, List.map_cons, ih]
      cases default <;> rfl
    | rest target =>
      rw [Plan.declarations, derivedFrom, List.map_cons, ih]
      cases shape <;> rfl

theorem render_eq (source : List Char) (temp : String) (plan : Plan) :
    plan.render source temp = String.join ((plan.derived source).map (Derived.text temp)) := by
  rw [Plan.render, declarations_eq, Plan.derived]

/-! ### Comparing the two -/

theorem mapM_eq_some_iff {α β : Type} {f : α → Option β} {l : List α} {r : List β} :
    l.mapM f = some r ↔ l.map f = r.map some := by
  induction l generalizing r with
  | nil => cases r <;> simp
  | cons a l ih => cases r <;> simp [List.mapM_cons, Option.bind_eq_some_iff, ih]

theorem mapM_congr {α β γ : Type} {f : α → Option γ} {g : β → Option γ} {l : List α} {l' : List β}
    (h : l.map f = l'.map g) : l.mapM f = l'.mapM g := by
  apply Option.ext
  intro r
  rw [mapM_eq_some_iff, mapM_eq_some_iff, h]

theorem map_bind_of_mapM {α β γ : Type} {f : α → Option β} {l : List α} {r : List β}
    (h : l.mapM f = some r) (g : β → Option γ) : l.map (fun a => (f a).bind g) = r.map g :=
  calc l.map (fun a => (f a).bind g)
      = (l.map f).map (·.bind g) := by simp
    _ = (r.map some).map (·.bind g) := by rw [mapM_eq_some_iff.1 h]
    _ = r.map g := by simp

theorem isSome_of_mapM {α β : Type} {f : α → Option β} {l : List α} {r : List β}
    (h : l.mapM f = some r) {a : α} (ha : a ∈ l) : (f a).isSome := by
  have hmem : f a ∈ r.map some := mapM_eq_some_iff.1 h ▸ List.mem_map_of_mem ha
  obtain ⟨b, -, hb⟩ := List.mem_map.1 hmem
  simp [← hb]

theorem mapM_isSome {α β : Type} {f : α → Option β} {l : List α}
    (h : ∀ a ∈ l, (f a).isSome) : (l.mapM f).isSome := by
  induction l with
  | nil => simp
  | cons a l ih =>
    obtain ⟨b, hb⟩ := Option.isSome_iff_exists.1 (h a List.mem_cons_self)
    obtain ⟨r, hr⟩ := Option.isSome_iff_exists.1 (ih fun x hx => h x (List.mem_cons_of_mem _ hx))
    simp [List.mapM_cons, hb, hr]

def Local.entry (d : V) (l : Local V) : String × Bound V :=
  (l.name, l.settle fun _ => d)

theorem bindAll_const (d : V) (env : Env V) (ls : List (Local V)) :
    bindAll (fun _ _ => d) env ls = env ++ ls.map (Local.entry d) := by
  induction ls generalizing env with
  | nil => simp [bindAll]
  | cons l ls ih => simp [bindAll, ih, Local.entry]

section Pointwise

-- Both sides go through one list: `held` is what destructuring gives for an element of it, and
-- `decl` the declaration that the element becomes.
variable {E : Type} {es : List E} {held : E → Option (Local V)} {decl : E → Option Derived}
  {ds : List Derived} {other : String → String} {props : Props V}

theorem evaluate?_eq_of_forall (hds : es.mapM decl = some ds) (defaults : Env V → String → V)
    (h : ∀ e ∈ es, held e = (decl e).bind (Derived.local? other props)) :
    evaluate? other defaults props ds = (es.mapM held).map (bindAll defaults []) := by
  have hmap : ds.map (Derived.local? other props) = es.map held := by
    rw [← map_bind_of_mapM hds]
    exact List.map_congr_left fun e he => (h e he).symm
  rw [evaluate?, mapM_congr hmap]

theorem evaluate?_isSome (hds : es.mapM decl = some ds) (defaults : Env V → String → V)
    (h : ∀ e ∈ es, ((decl e).bind (Derived.local? other props)).isSome) :
    (evaluate? other defaults props ds).isSome := by
  rw [evaluate?_eq_of_forall hds defaults fun _ _ => rfl, Option.isSome_map]
  exact mapM_isSome h

/-- One element on which the two differ is enough. -/
theorem entry_eq_of_evaluate?_eq (hds : es.mapM decl = some ds) (d : V)
    (hheld : (es.mapM held).isSome)
    (h : evaluate? other (fun _ _ => d) props ds =
      (es.mapM held).map (bindAll (fun _ _ => d) [])) {e : E} (he : e ∈ es) :
    (held e).map (Local.entry d) =
      ((decl e).bind (Derived.local? other props)).map (Local.entry d) := by
  obtain ⟨ls, hls⟩ := Option.isSome_iff_exists.1 hheld
  rw [hls, evaluate?, Option.map_some, Option.map_eq_some_iff] at h
  obtain ⟨ms, hms, heq⟩ := h
  rw [bindAll_const, bindAll_const, List.nil_append, List.nil_append] at heq
  have hmaps : es.map (fun e => (held e).map (Local.entry d)) =
      es.map fun e => ((decl e).bind (Derived.local? other props)).map (Local.entry d) :=
    calc es.map (fun e => (held e).map (Local.entry d))
        = (es.map held).map (Option.map (Local.entry d)) := by simp
      _ = (ls.map (Local.entry d)).map some := by rw [mapM_eq_some_iff.1 hls]; simp
      _ = (ms.map (Local.entry d)).map some := by rw [heq]
      _ = (ds.map (Derived.local? other props)).map (Option.map (Local.entry d)) := by
          rw [mapM_eq_some_iff.1 hms]; simp
      _ = es.map fun e => ((decl e).bind (Derived.local? other props)).map (Local.entry d) := by
          rw [← map_bind_of_mapM hds]; simp
  exact List.map_inj_left.1 hmaps e he

end Pointwise

end RefSugar.Unpack

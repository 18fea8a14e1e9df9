import RefSugar.Proofs.ArrayPatterns
import RefSugar.Proofs.ObjectPatterns

/-!
Unpacking a pattern binds what destructuring by it binds, for every value, exactly if every number
is spelled as the key it denotes and, in an array, only fields stand in front of a rest.
-/
namespace RefSugar.Unpack

open Syntax

def patternKeys : Pattern → List Key
  | .object _ fields => fields.filterMap fieldKey
  | _ => []

/-- The numbers that a pattern is unpacked by: those among its keys, or the places of its fields. -/
def numerals (source : List Char) : Pattern → List String
  | .object _ fields => keyNumerals source fields
  | .array _ items => (fieldPlaces items).map toString
  | _ => []

def RestsInOrder : Pattern → Prop
  | .array _ items => RestsFollowFields items
  | _ => True

variable {V : Type} {other : String → String} {source : List Char}

/-- If all keys denote something, the declarations can be evaluated. -/
theorem object_isSome {fields : List PatternField} {bs : List Binding}
    (hkeys : KeysDenote other source fields)
    (hbs : fields.mapM (objectBinding? source) = some bs) (defaults : Env V → String → V)
    (props : Props V) :
    (evaluate? other defaults props (derivedFrom source .object [] bs)).isSome := by
  apply evaluate?_isSome (fronts_mapM_fieldDerived? hbs [] [] rfl)
  intro e he
  have hasked : ∀ f ∈ fields, ∀ key, fieldKey f = some key →
      (askedKey? other source key).isSome := by
    intro f hf key hkey
    rw [askedKey?, Option.isSome_map]
    exact hkeys f hf key hkey
  obtain ⟨ls, hls⟩ := Option.isSome_iff_exists.1 (fieldLocal?_isSome hbs hasked props)
  rw [← fieldDerived?_local? hkeys hbs props he]
  exact isSome_of_mapM hls he

theorem array_isSome (other : String → String) {items : List Pattern} {bs : List Binding}
    (hbs : arrayBindings? 0 items = some bs) (defaults : Env V → String → V) (values : List V) :
    (evaluate? other defaults (Props.ofArray values) (derivedFrom source .array [] bs)).isSome := by
  apply evaluate?_isSome (places_mapM_itemDerived? [] hbs)
  intro e he
  rcases item_cases hbs he with ⟨target, default, -, hderived, -⟩ | ⟨target, -, hderived, -⟩
  · rw [hderived, Option.bind_some, field_local?]
    rfl
  · rw [hderived, Option.bind_some, rest_local?]
    rfl

/-- A pattern with a plan is an object of fields with bindings, or an array of places with them. -/
theorem plan?_cases {p : Pattern} {plan : Plan} (h : plan? source p = some plan) :
    (∃ span fields bs, p = .object span fields ∧
      fields.mapM (objectBinding? source) = some bs ∧ plan = ⟨.object, span, bs⟩) ∨
    ∃ span items bs, p = .array span items ∧ arrayBindings? 0 items = some bs ∧
      plan = ⟨.array, span, bs⟩ := by
  cases p with
  | object span fields =>
    obtain ⟨bs, hbs, rfl⟩ := Option.map_eq_some_iff.1 h
    exact .inl ⟨span, fields, bs, rfl, hbs, rfl⟩
  | array span items =>
    obtain ⟨bs, hbs, rfl⟩ := Option.map_eq_some_iff.1 h
    exact .inr ⟨span, items, bs, rfl, hbs, rfl⟩
  | _ => cases h

/-- For every pattern that is unpacked, and whose keys denote property keys: the text behind the
temporary is that of its declarations; they bind all names, as destructuring does; and they bind the
same as destructuring for every value exactly if the numbers among the keys are spelled as the keys
they denote, and only fields stand in front of a rest of an array. The places of an array are
spelled as the keys they denote. -/
theorem unpacking_keeps_meaning_iff (other : String → String) (source : List Char) (temp : String)
    (p : Pattern) (plan : Plan) (hplan : plan? source p = some plan)
    (hkeys : ∀ key ∈ patternKeys p, (keyOf? other source key).isSome) :
    plan.render source temp = String.join ((plan.derived source).map (Derived.text temp)) ∧
    (∀ (V : Type) (defaults : Env V → String → V) (src : Source V), src.Fits p →
      (evaluate? other defaults src.props (plan.derived source)).isSome ∧
        (destructure? other source defaults p src).isSome) ∧
    ((∀ (V : Type) (defaults : Env V → String → V) (src : Source V), src.Fits p →
        evaluate? other defaults src.props (plan.derived source) =
          destructure? other source defaults p src) ↔
      (∀ t ∈ numerals source p, PropertyKey.number other t = t) ∧ RestsInOrder p) ∧
    ∀ n < 2 ^ 53, PropertyKey.number other (toString n) = toString n := by
  refine ⟨render_eq source temp plan, ?_, ?_, fun n hn => PropertyKey.number_toString other hn⟩
  · intro V defaults src hfits
    rcases plan?_cases hplan with ⟨span, fields, bs, rfl, hbs, rfl⟩ |
      ⟨span, items, bs, rfl, hbs, rfl⟩
    · have hdenote : KeysDenote other source fields := fun f hf key hkey =>
        hkeys key (List.mem_filterMap.2 ⟨f, hf, hkey⟩)
      refine ⟨object_isSome hdenote hbs defaults src.props, ?_⟩
      rw [destructure?, Option.isSome_map, locals?]
      exact fieldLocal?_isSome hbs hdenote src.props
    · cases src with
      | object props => cases hfits
      | array values =>
        refine ⟨array_isSome other hbs defaults values, ?_⟩
        rw [destructure?, Option.isSome_map, locals?]
        exact itemLocal?_isSome hbs values
  · rcases plan?_cases hplan with ⟨span, fields, bs, rfl, hbs, rfl⟩ |
      ⟨span, items, bs, rfl, hbs, rfl⟩
    · have hdenote : KeysDenote other source fields := fun f hf key hkey =>
        hkeys key (List.mem_filterMap.2 ⟨f, hf, hkey⟩)
      have hiff := object_agree_iff hdenote hbs
      constructor
      · intro h
        exact ⟨hiff.1 fun V defaults props => h V defaults (.object props) trivial, trivial⟩
      · rintro ⟨hspelled, -⟩ V defaults src -
        exact hiff.2 hspelled V defaults src.props
    · have hiff := @array_agree_iff other source items bs hbs
      constructor
      · intro h
        obtain ⟨hspelled, hrests⟩ := hiff.1 fun V defaults values =>
          h V defaults (.array values) trivial
        refine ⟨fun t ht => ?_, hrests⟩
        obtain ⟨n, hn, rfl⟩ := List.mem_map.1 ht
        exact hspelled n hn
      · rintro ⟨hspelled, hrests⟩ V defaults src hfits
        cases src with
        | object props => cases hfits
        | array values =>
          exact hiff.2 ⟨fun n hn => hspelled _ (List.mem_map_of_mem hn), hrests⟩ V defaults values

/-- A hexadecimal key is read under another key, and a rest behind a hole holds what the hole skips.
-/
theorem unpacking_changes_meaning :
    (∃ (source : List Char) (p : Pattern) (plan : Plan),
      source = "let { 0x10: a } = $x()".toList ∧ plan? source p = some plan ∧
      (∀ key ∈ patternKeys p, (keyOf? id source key).isSome) ∧
      plan.render source "t" = "\n,a = __rfx_toRef(t, '0x10')" ∧
      ¬∀ (V : Type) (defaults : Env V → String → V) (src : Source V), src.Fits p →
        evaluate? id defaults src.props (plan.derived source) =
          destructure? id source defaults p src) ∧
    ∃ (source : List Char) (p : Pattern) (plan : Plan),
      source = "let [, a, ...rest] = $x()".toList ∧ plan? source p = some plan ∧
      (∀ key ∈ patternKeys p, (keyOf? id source key).isSome) ∧
      ¬∀ (V : Type) (defaults : Env V → String → V) (src : Source V), src.Fits p →
        evaluate? id defaults src.props (plan.derived source) =
          destructure? id source defaults p src := by
  constructor
  · have hplan : plan? "let { 0x10: a } = $x()".toList
        (.object ⟨4, 15⟩ [.pair (.number ⟨6, 10⟩) (.name ⟨"a", ⟨12, 13⟩⟩)]) =
          some ⟨.object, ⟨4, 15⟩, [.field "a" (.name "0x10") none]⟩ := by decide
    have hkeys : ∀ key ∈ [Key.number ⟨6, 10⟩],
        (keyOf? id "let { 0x10: a } = $x()".toList key).isSome := by simp; decide
    refine ⟨_, _, _, rfl, hplan, hkeys, by decide, fun h => ?_⟩
    have hspelled := ((unpacking_keeps_meaning_iff id _ "t" _ _ hplan hkeys).2.2.1.1 h).1
    exact absurd (hspelled "0x10" (by decide)) (by decide)
  · have hplan : plan? "let [, a, ...rest] = $x()".toList
        (.array ⟨4, 18⟩ [.hole, .name ⟨"a", ⟨7, 8⟩⟩, .rest (.name ⟨"rest", ⟨13, 17⟩⟩)]) =
          some ⟨.array, ⟨4, 18⟩, [.field "a" (.index 1) none, .rest "rest"]⟩ := by decide
    refine ⟨_, _, _, rfl, hplan, by simp [patternKeys], fun h => ?_⟩
    have hrests := ((unpacking_keeps_meaning_iff id _ "t" _ _ hplan
      (by simp [patternKeys])).2.2.1.1 h).2
    have hhole := hrests ([.hole, .name ⟨"a", ⟨7, 8⟩⟩], .rest (.name ⟨"rest", ⟨13, 17⟩⟩))
      (by simp [fronts]) rfl .hole (by simp)
    cases hhole

end RefSugar.Unpack

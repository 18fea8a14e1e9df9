import RefSugar.Proofs.Destructuring

/-!
Unpacking objects. A declaration asks for a number by its letters, so unpacking an object binds what
destructuring binds exactly if its numbers are spelled as the keys they denote.
-/
namespace RefSugar.Unpack

open Syntax

variable {f : PatternField} {fields : List PatternField} {bs : List Binding} {key : Key}

variable {V : Type} {other : String → String} {source : List Char}

def numeral? (source : List Char) : Key → Option String
  | .number span => some (spanText source span)
  | _ => none

def fieldDerived? (source : List Char) (field : List PatternField × PatternField) :
    Option Derived :=
  (objectBinding? source field.2).bind fun
    | .field target key default =>
      some (.field target key.argument (default.map (spanText source)))
    | .rest target =>
      ((field.1.filterMap fieldKey).mapM (fieldKey? source)).map fun keys =>
        .rest target (keys.map FieldKey.excluded) .object

/-- A field that is read by a key holds what the property of that key holds. -/
theorem objectBinding?_field {target : String} {fk : FieldKey}
    {default : Option Span} (h : objectBinding? source f = some (.field target fk default)) :
    ∃ key, fieldKey f = some key ∧ fieldKey? source key = some fk ∧
      ∀ (V : Type) (key? : Key → Option String) (props : Props V) (front : List PatternField),
        fieldLocal? source key? props (front, f) = (key? key).map fun key =>
          ⟨target, .value (props.lookup key), default.map (spanText source)⟩ := by
  cases f with
  | shorthand id value =>
    cases h
    refine ⟨.name id, rfl, rfl, fun V key? props front => ?_⟩
    simp only [fieldLocal?, Option.map_map]
    rfl
  | pair key value =>
    simp only [objectBinding?, Option.bind_eq_some_iff, Option.map_eq_some_iff, Prod.exists,
      Binding.field.injEq] at h
    obtain ⟨fk, hfk, target, default, htarget, rfl, rfl, rfl⟩ := h
    refine ⟨key, rfl, hfk, fun V key? props front => ?_⟩
    unfold simpleTarget? at htarget
    split at htarget
    · cases htarget
      rfl
    · cases htarget
      rfl
    · cases htarget
  | rest inner => simp [objectBinding?] at h

theorem objectBinding?_rest {target : String} (h : objectBinding? source f = some (.rest target)) :
    ∃ id, f = .rest (.name id) ∧ id.name = target := by
  cases f with
  | shorthand id value => cases h
  | pair key value => simp [objectBinding?, Option.bind_eq_some_iff] at h
  | rest inner =>
    cases inner with
    | name id => exact ⟨id, rfl, by simpa [objectBinding?, restTarget?] using h⟩
    | _ => simp [objectBinding?, restTarget?] at h

/-- The declarations of a plan, field by field. -/
theorem fronts_mapM_fieldDerived?
    (hbs : fields.mapM (objectBinding? source) = some bs) (front : List PatternField)
    (seen : List FieldKey)
    (hseen : (front.filterMap fieldKey).mapM (fieldKey? source) = some seen) :
    (fronts front fields).mapM (fieldDerived? source) =
      some (derivedFrom source .object seen bs) := by
  induction fields generalizing bs front seen with
  | nil =>
    cases hbs
    rfl
  | cons f fields ih =>
    simp only [List.mapM_cons, Option.pure_def, Option.bind_eq_bind, Option.bind_eq_some_iff,
      Option.some.injEq] at hbs
    obtain ⟨b, hb, bs, hbs, rfl⟩ := hbs
    cases b with
    | field target fk default =>
      obtain ⟨key, hkey, hfk, -⟩ := objectBinding?_field hb
      have hseen' : ((front ++ [f]).filterMap fieldKey).mapM (fieldKey? source) =
          some (seen ++ [fk]) := by
        simp [List.mapM_append, hseen, hkey, hfk]
      simp [fronts, fieldDerived?, hb, ih hbs _ _ hseen', derivedFrom]
    | rest target =>
      obtain ⟨id, hf, -⟩ := objectBinding?_rest hb
      have hseen' : ((front ++ [f]).filterMap fieldKey).mapM (fieldKey? source) = some seen := by
        have hkeys : (front ++ [f]).filterMap fieldKey = front.filterMap fieldKey := by
          simp [hf, fieldKey]
        rw [hkeys, hseen]
      simp [fronts, fieldDerived?, hb, hseen, ih hbs _ _ hseen', derivedFrom]

/-- The key that is asked for: a number is taken letter by letter. -/
def askedKey? (other : String → String) (source : List Char) (key : Key) : Option String :=
  (keyOf? other source key).map fun denoted => (numeral? source key).getD denoted

/-- The literals that are written for a key denote the key that is asked for. -/
theorem ofLiteral?_of_fieldKey? {fk : FieldKey} (hfk : fieldKey? source key = some fk)
    (hkey : (keyOf? other source key).isSome) :
    PropertyKey.ofLiteral? other fk.argument = askedKey? other source key ∧
      PropertyKey.ofLiteral? other fk.excluded = askedKey? other source key := by
  obtain ⟨k, hk⟩ := Option.isSome_iff_exists.1 hkey
  cases key with
  | name id =>
    cases hfk
    simp only [keyOf?, Option.ite_none_right_eq_some] at hk
    obtain ⟨hplain, -⟩ := hk
    have h := PropertyKey.ofLiteral?_quoted other id.name hplain
    simp [FieldKey.argument, FieldKey.excluded, askedKey?, keyOf?, hplain, numeral?, h]
  | string span =>
    cases hfk
    have h : PropertyKey.ofLiteral? other (String.ofList (textUnder source span)) = some k :=
      PropertyKey.ofLiteral?_of_string? (by simpa [keyOf?] using hk)
    simp [FieldKey.argument, FieldKey.excluded, askedKey?, hk, numeral?, h]
  | number span =>
    cases hfk
    simp only [keyOf?, Option.ite_none_right_eq_some] at hk
    have hplain := PropertyKey.isPlain_of_isNumeric hk.1
    have h := PropertyKey.ofLiteral?_quoted other (String.ofList (textUnder source span))
      (by simpa using hplain)
    simp [FieldKey.argument, FieldKey.excluded, askedKey?, keyOf?, hk.1, numeral?, spanText, h]
  | computed e => cases hk
  | other => cases hk

/-- Keys are asked for as they are denoted, if numbers are spelled as the key they denote. -/
theorem askedKey?_eq_keyOf?
    (h : ∀ t, numeral? source key = some t → PropertyKey.number other t = t) :
    askedKey? other source key = keyOf? other source key := by
  cases key with
  | number span =>
    have hspelled := h _ rfl
    simp only [askedKey?, keyOf?, numeral?, Option.getD_some, spanText] at hspelled ⊢
    split
    · rw [Option.map_some, hspelled]
    · rfl
  | _ => simp [askedKey?, numeral?]

def KeysDenote (other : String → String) (source : List Char) (fields : List PatternField) :
    Prop :=
  ∀ f ∈ fields, ∀ key, fieldKey f = some key → (keyOf? other source key).isSome

theorem fieldKey?_isSome (h : (objectBinding? source f).isSome)
    (hkey : fieldKey f = some key) : (fieldKey? source key).isSome := by
  cases f with
  | shorthand id value =>
    cases hkey
    rfl
  | pair key' value =>
    cases hkey
    cases hfk : fieldKey? source key with
    | none => simp [objectBinding?, hfk] at h
    | some fk => rfl
  | rest inner => cases hkey

/-- What a field of an unpacked pattern can be: one that reads a key, or a rest. -/
theorem field_cases
    (hbs : fields.mapM (objectBinding? source) = some bs) {e : List PatternField × PatternField}
    (he : e ∈ fronts [] fields) :
    (∃ target key fk default, e.2 ∈ fields ∧ fieldKey e.2 = some key ∧
      fieldKey? source key = some fk ∧
      fieldDerived? source e = some (.field target fk.argument default) ∧
      ∀ (V : Type) (key? : Key → Option String) (props : Props V),
        fieldLocal? source key? props e =
          (key? key).map fun key => ⟨target, .value (props.lookup key), default⟩) ∨
    ∃ target fks, e.1 ⊆ fields ∧ fieldKey e.2 = none ∧
      (e.1.filterMap fieldKey).mapM (fieldKey? source) = some fks ∧
      fieldDerived? source e = some (.rest target (fks.map FieldKey.excluded) .object) ∧
      ∀ (V : Type) (key? : Key → Option String) (props : Props V),
        fieldLocal? source key? props e =
          ((e.1.filterMap fieldKey).mapM key?).map fun keys =>
            ⟨target, .object (props.without keys), none⟩ := by
  obtain ⟨front, f⟩ := e
  obtain ⟨before, after, hfields, hfront⟩ := mem_fronts.1 he
  obtain rfl : front = before := hfront
  have hf : f ∈ fields := by simp [hfields]
  have hsub : front ⊆ fields := by simp [hfields]
  obtain ⟨b, hb⟩ := Option.isSome_iff_exists.1 (isSome_of_mapM hbs hf)
  cases b with
  | field target fk default =>
    left
    obtain ⟨key, hkey, hfk, hlocal⟩ := objectBinding?_field hb
    exact ⟨target, key, fk, default.map (spanText source), hf, hkey, hfk,
      by simp [fieldDerived?, hb], fun V key? props => hlocal V key? props front⟩
  | rest target =>
    right
    obtain ⟨id, rfl, rfl⟩ := objectBinding?_rest hb
    have hall : ((front.filterMap fieldKey).mapM (fieldKey? source)).isSome := by
      apply mapM_isSome
      intro key hkey
      obtain ⟨g, hg, hgkey⟩ := List.mem_filterMap.1 hkey
      exact fieldKey?_isSome (isSome_of_mapM hbs (hsub hg)) hgkey
    obtain ⟨fks, hfks⟩ := Option.isSome_iff_exists.1 hall
    exact ⟨id.name, fks, hsub, rfl, hfks, by simp [fieldDerived?, hb, hfks],
      fun V key? props => rfl⟩

/-- The keys left out by a rest are those that the fields in front of it ask for. -/
theorem mapM_excluded {front : List PatternField} (hkeys : KeysDenote other source fields)
    {fks : List FieldKey} (hsub : front ⊆ fields)
    (hfks : (front.filterMap fieldKey).mapM (fieldKey? source) = some fks) :
    (front.filterMap fieldKey).mapM (askedKey? other source) =
      (fks.map FieldKey.excluded).mapM (PropertyKey.ofLiteral? other) := by
  apply mapM_congr
  rw [List.map_map, ← map_bind_of_mapM hfks]
  apply List.map_congr_left
  intro key hkey
  obtain ⟨f, hf, hfkey⟩ := List.mem_filterMap.1 hkey
  obtain ⟨fk, hfk⟩ := Option.isSome_iff_exists.1 (isSome_of_mapM hfks hkey)
  rw [hfk, Option.bind_some, Function.comp_apply]
  exact (ofLiteral?_of_fieldKey? hfk (hkeys f (hsub hf) key hfkey)).2.symm

/-- A declaration holds what the field holds under the key that is asked for. -/
theorem fieldDerived?_local? (hkeys : KeysDenote other source fields)
    (hbs : fields.mapM (objectBinding? source) = some bs) (props : Props V)
    {e : List PatternField × PatternField} (he : e ∈ fronts [] fields) :
    fieldLocal? source (askedKey? other source) props e =
      (fieldDerived? source e).bind (Derived.local? other props) := by
  rcases field_cases hbs he with ⟨target, key, fk, default, hf, hkey, hfk, hderived, hlocal⟩ |
    ⟨target, fks, hsub, -, hfks, hderived, hlocal⟩
  · have hasked := (ofLiteral?_of_fieldKey? hfk (hkeys _ hf key hkey)).1
    rw [hlocal, hderived, Option.bind_some, Derived.local?, hasked]
  · rw [hlocal, hderived, Option.bind_some, Derived.local?, mapM_excluded hkeys hsub hfks]

/-- Fields hold something under every reading that gives each of their keys a meaning. -/
theorem fieldLocal?_isSome
    (hbs : fields.mapM (objectBinding? source) = some bs) {key? : Key → Option String}
    (hkeys : ∀ f ∈ fields, ∀ key, fieldKey f = some key → (key? key).isSome) (props : Props V) :
    ((fronts [] fields).mapM (fieldLocal? source key? props)).isSome := by
  apply mapM_isSome
  intro e he
  rcases field_cases hbs he with ⟨target, key, fk, default, hf, hkey, -, -, hlocal⟩ |
    ⟨target, fks, hsub, -, -, -, hlocal⟩
  · rw [hlocal, Option.isSome_map]
    exact hkeys _ hf key hkey
  · rw [hlocal, Option.isSome_map]
    apply mapM_isSome
    intro key hkey
    obtain ⟨g, hg, hgkey⟩ := List.mem_filterMap.1 hkey
    exact hkeys g (hsub hg) key hgkey

/-- What fields hold depends on their keys alone. -/
theorem fieldLocal?_congr
    (hbs : fields.mapM (objectBinding? source) = some bs) {key? key?' : Key → Option String}
    (h : ∀ f ∈ fields, ∀ key, fieldKey f = some key → key? key = key?' key) (props : Props V)
    {e : List PatternField × PatternField} (he : e ∈ fronts [] fields) :
    fieldLocal? source key? props e = fieldLocal? source key?' props e := by
  rcases field_cases hbs he with ⟨target, key, fk, default, hf, hkey, -, -, hlocal⟩ |
    ⟨target, fks, hsub, -, -, -, hlocal⟩
  · rw [hlocal, hlocal, h _ hf key hkey]
  · have hmap : (e.1.filterMap fieldKey).mapM key? = (e.1.filterMap fieldKey).mapM key?' := by
      apply mapM_congr
      apply List.map_congr_left
      intro key hkey
      obtain ⟨g, hg, hgkey⟩ := List.mem_filterMap.1 hkey
      exact h g (hsub hg) key hgkey
    rw [hlocal, hlocal, hmap]

def keyNumerals (source : List Char) (fields : List PatternField) : List String :=
  (fields.filterMap fieldKey).filterMap (numeral? source)

/-- A number denotes the key of its value, but is asked for by its letters. -/
theorem keyOf?_of_numeral? {t : String} (ht : numeral? source key = some t)
    (hkey : (keyOf? other source key).isSome) :
    keyOf? other source key = some (PropertyKey.number other t) ∧
      askedKey? other source key = some t := by
  obtain ⟨k, hk⟩ := Option.isSome_iff_exists.1 hkey
  have hasked : askedKey? other source key = some t := by
    rw [askedKey?, hk, ht]
    rfl
  cases key with
  | number span =>
    cases ht
    simp only [keyOf?, Option.ite_none_right_eq_some] at hk
    exact ⟨if_pos hk.1, hasked⟩
  | _ => cases ht

/-- Unpacking an object binds what destructuring binds, exactly if its numbers are spelled as the
keys they denote. -/
theorem object_agree_iff (hkeys : KeysDenote other source fields)
    (hbs : fields.mapM (objectBinding? source) = some bs) :
    (∀ (V : Type) (defaults : Env V → String → V) (props : Props V),
      evaluate? other defaults props (derivedFrom source .object [] bs) =
        ((fronts [] fields).mapM (fieldLocal? source (keyOf? other source) props)).map
          (bindAll defaults [])) ↔
      ∀ t ∈ keyNumerals source fields, PropertyKey.number other t = t := by
  have hds : (fronts [] fields).mapM (fieldDerived? source) =
      some (derivedFrom source .object [] bs) :=
    fronts_mapM_fieldDerived? hbs [] [] rfl
  constructor
  · intro h t ht
    by_contra hne
    obtain ⟨key, hkey, ht⟩ := List.mem_filterMap.1 ht
    obtain ⟨f, hf, hfkey⟩ := List.mem_filterMap.1 hkey
    obtain ⟨before, after, hfields⟩ := List.append_of_mem hf
    have he : (before, f) ∈ fronts [] fields := mem_fronts.2 ⟨before, after, hfields, rfl⟩
    -- The value has the key that the number denotes, and no other: destructuring finds it, and the
    -- declaration asks for another key.
    have hentry := entry_eq_of_evaluate?_eq hds false (fieldLocal?_isSome hbs hkeys _)
      (h Bool (fun _ _ => false) [(PropertyKey.number other t, true)]) he
    rw [← fieldDerived?_local? hkeys hbs _ he] at hentry
    obtain ⟨hdenoted, hasked⟩ := keyOf?_of_numeral? ht (hkeys f hf key hfkey)
    rcases field_cases hbs he with ⟨target, key', fk, default, -, hkey', -, -, hlocal⟩ |
      ⟨target, fks, -, hnone, -⟩
    · obtain rfl : key = key' := Option.some.inj (hfkey.symm.trans hkey')
      have hmiss : (t == PropertyKey.number other t) = false := by
        simpa using fun heq : t = _ => hne heq.symm
      rw [hlocal, hlocal, hdenoted, hasked] at hentry
      cases default <;> simp [Local.entry, Local.settle, List.lookup_cons, hmiss] at hentry
    · exact absurd (hfkey.symm.trans hnone) (by simp)
  · intro h V defaults props
    apply evaluate?_eq_of_forall hds
    intro e he
    rw [← fieldDerived?_local? hkeys hbs props he]
    apply fieldLocal?_congr hbs _ props he
    intro f hf key hkey
    apply Eq.symm
    apply askedKey?_eq_keyOf?
    intro t ht
    exact h t (List.mem_filterMap.2 ⟨key, List.mem_filterMap.2 ⟨f, hf, hkey⟩, ht⟩)

end RefSugar.Unpack

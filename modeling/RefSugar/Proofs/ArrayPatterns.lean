import RefSugar.Proofs.Destructuring

/-!
Unpacking arrays. A field is read by its place, and a rest leaves out the places of the fields in
front of it. So unpacking an array binds what destructuring binds exactly if its places are spelled
as the keys they denote and nothing but fields stands in front of a rest.
-/
namespace RefSugar.Unpack

open Syntax

variable {p : Pattern} {n : Nat} {items : List Pattern} {bs : List Binding}

variable {V : Type} {other : String → String} {source : List Char}

def isRest : Pattern → Bool
  | .rest _ => true
  | _ => false

def isField (p : Pattern) : Bool :=
  !isHole p && !isRest p

def fieldPlaces (items : List Pattern) : List Nat :=
  (items.zipIdx.filter fun p => isField p.1).map Prod.snd

def itemDerived? (source : List Char) (item : List Pattern × Pattern) : Option Derived :=
  match item.2 with
  | .rest inner =>
    (restTarget? inner).map fun target =>
      .rest target ((fieldPlaces item.1).map fun n => (FieldKey.index n).excluded) .array
  | p =>
    (simpleTarget? p).map fun (target, default) =>
      .field target (FieldKey.index item.1.length).argument (default.map (spanText source))

/-- A simple target is a name, or a name with a default. -/
theorem simpleTarget?_cases {target : String} {default : Option Span}
    (h : simpleTarget? p = some (target, default)) :
    (∃ id, p = .name id ∧ id.name = target ∧ default = none) ∨
      ∃ id value, p = .default (.name id) value ∧ id.name = target ∧
        default = some value.span := by
  unfold simpleTarget? at h
  split at h
  · next id =>
    cases h
    exact .inl ⟨id, rfl, rfl, rfl⟩
  · next id value =>
    cases h
    exact .inr ⟨id, value, rfl, rfl, rfl⟩
  · cases h

/-- What an item of an unpacked pattern can be: a hole, a rest, or a field. -/
theorem arrayBindings?_cons {item : Pattern} (h : arrayBindings? n (item :: items) = some bs) :
    ∃ tail, arrayBindings? (n + 1) items = some tail ∧
      ((item = .hole ∧ bs = tail) ∨
        (∃ id, item = .rest (.name id) ∧ bs = .rest id.name :: tail) ∨
        ∃ target default, simpleTarget? item = some (target, default) ∧
          bs = .field target (.index n) default :: tail) := by
  cases item with
  | hole => exact ⟨bs, h, .inl ⟨rfl, rfl⟩⟩
  | rest inner =>
    simp only [arrayBindings?, Option.bind_eq_some_iff, Option.map_eq_some_iff] at h
    obtain ⟨target, htarget, tail, htail, rfl⟩ := h
    cases inner with
    | name id =>
      cases htarget
      exact ⟨tail, htail, .inr (.inl ⟨id, rfl, rfl⟩)⟩
    | _ => cases htarget
  | _ =>
    simp only [arrayBindings?, Option.bind_eq_some_iff, Option.map_eq_some_iff, Prod.exists] at h
    obtain ⟨target, default, htarget, tail, htail, rfl⟩ := h
    exact ⟨tail, htail, .inr (.inr ⟨target, default, htarget, rfl⟩)⟩

theorem isField_of_simpleTarget? {t : String × Option Span}
    (h : simpleTarget? p = some t) : isField p = true := by
  cases p <;> first | rfl | cases h

theorem fieldPlaces_append (items : List Pattern) (p : Pattern) :
    fieldPlaces (items ++ [p]) =
      fieldPlaces items ++ if isField p then [items.length] else [] := by
  cases h : isField p <;> simp [fieldPlaces, List.zipIdx_append, h]

theorem itemDerived?_field {target : String} {default : Option Span}
    (h : simpleTarget? p = some (target, default)) (front : List Pattern) :
    itemDerived? source (front, p) =
      some (.field target (toString front.length) (default.map (spanText source))) := by
  rcases simpleTarget?_cases h with ⟨id, rfl, rfl, rfl⟩ | ⟨id, value, rfl, rfl, rfl⟩
  · rfl
  · rfl

/-- The declarations of a plan, place by place. -/
theorem places_mapM_itemDerived? (front : List Pattern)
    (hbs : arrayBindings? front.length items = some bs) :
    ((fronts front items).filter fun item => !isHole item.2).mapM (itemDerived? source) =
      some (derivedFrom source .array ((fieldPlaces front).map .index) bs) := by
  induction items generalizing bs front with
  | nil =>
    cases hbs
    rfl
  | cons item items ih =>
    obtain ⟨tail, htail, hcases⟩ := arrayBindings?_cons hbs
    have hnext := ih (front ++ [item]) (by simpa using htail)
    rw [fieldPlaces_append] at hnext
    rcases hcases with ⟨rfl, rfl⟩ | ⟨id, rfl, rfl⟩ | ⟨target, default, htarget, rfl⟩
    · have hfield : isField .hole = false := rfl
      rw [hfield] at hnext
      simpa [fronts, isHole] using hnext
    · have hfield : isField (.rest (.name id)) = false := rfl
      rw [hfield] at hnext
      simp only [Bool.false_eq_true, if_false, List.append_nil] at hnext
      have hhole : isHole (.rest (.name id)) = false := rfl
      simp [fronts, hhole, hnext, itemDerived?, restTarget?, derivedFrom, Function.comp_def]
    · have hfield := isField_of_simpleTarget? htarget
      have hhole : isHole item = false := by
        simp [isField] at hfield
        exact hfield.1
      rw [hfield] at hnext
      simp only [if_true, List.map_append, List.map_cons, List.map_nil] at hnext
      simp [fronts, hhole, hnext, itemDerived?_field htarget, derivedFrom, FieldKey.argument]

/-- Items of a pattern with bindings are holes, rests that name something, or simple. -/
theorem accepted_of_arrayBindings? (hbs : arrayBindings? n items = some bs) (hp : p ∈ items) :
    p = .hole ∨ (∃ id, p = .rest (.name id)) ∨ (simpleTarget? p).isSome := by
  induction items generalizing n bs with
  | nil => cases hp
  | cons item items ih =>
    obtain ⟨tail, htail, hcases⟩ := arrayBindings?_cons hbs
    rcases List.mem_cons.1 hp with rfl | hp
    · rcases hcases with ⟨rfl, -⟩ | ⟨id, rfl, -⟩ | ⟨target, default, htarget, -⟩
      · exact .inl rfl
      · exact .inr (.inl ⟨id, rfl⟩)
      · exact .inr (.inr (by simp [htarget]))
    · exact ih htail hp

/-- What binds a name in an unpacked pattern: a field at its place, or a rest. -/
theorem item_cases
    (hbs : arrayBindings? 0 items = some bs) {e : List Pattern × Pattern} (he : e ∈ places items) :
    (∃ target default, isField e.2 = true ∧
      itemDerived? source e = some (.field target (toString e.1.length) default) ∧
      ∀ (V : Type) (values : List V),
        itemLocal? source values e = some ⟨target, .value values[e.1.length]?, default⟩) ∨
    ∃ target, isRest e.2 = true ∧
      itemDerived? source e = some (.rest target
        ((fieldPlaces e.1).map fun n => (FieldKey.index n).excluded) .array) ∧
      ∀ (V : Type) (values : List V),
        itemLocal? source values e = some ⟨target, .array (values.drop e.1.length), none⟩ := by
  obtain ⟨front, p⟩ := e
  obtain ⟨hmem, hhole⟩ := List.mem_filter.1 he
  obtain ⟨before, after, hitems, -⟩ := mem_fronts.1 hmem
  have hp : p ∈ items := by simp [hitems]
  rcases accepted_of_arrayBindings? hbs hp with rfl | ⟨id, rfl⟩ | htarget
  · cases hhole
  · exact .inr ⟨id.name, rfl, rfl, fun V values => rfl⟩
  · obtain ⟨⟨target, default⟩, htarget⟩ := Option.isSome_iff_exists.1 htarget
    have hfield := isField_of_simpleTarget? htarget
    left
    refine ⟨target, default.map (spanText source), hfield, itemDerived?_field htarget front,
      fun V values => ?_⟩
    rcases simpleTarget?_cases htarget with ⟨id, rfl, rfl, rfl⟩ | ⟨id, value, rfl, rfl, rfl⟩
    · rfl
    · rfl

/-- An array has its elements under the decimal spelling of their places. -/
theorem lookup_ofArray (values : List V) (n : Nat) :
    (Props.ofArray values).lookup (toString n) = values[n]? := by
  have hfrom (k : Nat) : ((values.zipIdx k).map fun p => (toString p.2, p.1)).lookup
      (toString (k + n)) = values[n]? := by
    induction values generalizing k n with
    | nil => simp
    | cons v values ih =>
      rw [List.zipIdx_cons, List.map_cons, List.lookup_cons]
      cases n with
      | zero => simp
      | succ n =>
        have hne : (toString (k + (n + 1)) == toString k) = false := by
          rw [beq_eq_false_iff_ne, Ne, PropertyKey.toString_inj]
          omega
        have hnext := ih n (k + 1)
        rw [Nat.add_right_comm, Nat.add_assoc] at hnext
        rw [hne]
        simpa using hnext
  simpa [Props.ofArray] using hfrom 0

theorem mem_ofArray {values : List V} {key : String} {v : V} :
    (key, v) ∈ Props.ofArray values ↔ ∃ n : Nat, key = toString n ∧ values[n]? = some v := by
  simp only [Props.ofArray, List.mem_map, List.mem_zipIdx_iff_getElem?, Prod.exists, Prod.mk.injEq]
  constructor
  · rintro ⟨v, n, hv, rfl, rfl⟩
    exact ⟨n, rfl, hv⟩
  · rintro ⟨n, rfl, hv⟩
    exact ⟨v, n, hv, rfl, rfl⟩

/-- Without some places an array is what stands at the others, in order. -/
theorem values_without (values : List V) (ns : List Nat) :
    ((Props.ofArray values).without (ns.map toString)).map Prod.snd =
      (values.zipIdx.filter fun p => !ns.contains p.2).map Prod.fst := by
  have hkeys (n : Nat) : (ns.map toString).contains (toString n) = ns.contains n := by
    rw [Bool.eq_iff_iff, List.contains_iff_mem, List.contains_iff_mem, List.mem_map]
    simp only [PropertyKey.toString_inj, exists_eq_right]
  rw [Props.without, Props.ofArray, List.filter_map, List.map_map]
  simp only [Function.comp_def, hkeys]

/-- Without its first places an array is what stands behind them. -/
theorem filter_range_zipIdx (values : List V) (n : Nat) :
    (values.zipIdx.filter fun p => !(List.range n).contains p.2).map Prod.fst = values.drop n := by
  have hfront : ((values.take n).zipIdx.filter fun p => !(List.range n).contains p.2) = [] := by
    rw [List.filter_eq_nil_iff]
    intro p hp
    have hlt := List.snd_lt_of_mem_zipIdx hp
    rw [List.length_take] at hlt
    simp
    omega
  have hback (k : Nat) (hk : n ≤ k) (vs : List V) :
      ((vs.zipIdx k).filter fun p => !(List.range n).contains p.2) = vs.zipIdx k := by
    rw [List.filter_eq_self]
    intro p hp
    have hle := List.le_snd_of_mem_zipIdx hp
    simp
    omega
  by_cases hn : n ≤ values.length
  · have hlength : (values.take n).length = n := by simp [hn]
    conv_lhs => rw [← List.take_append_drop n values]
    rw [List.zipIdx_append, List.filter_append, hfront, hback _ (by omega), List.nil_append,
      List.zipIdx_map_fst]
  · have htake : values.take n = values := List.take_of_length_le (by omega)
    rw [htake] at hfront
    rw [hfront, List.drop_of_length_le (by omega)]
    rfl

/-- Only fields stand in front of a rest. -/
def RestsFollowFields (items : List Pattern) : Prop :=
  ∀ e ∈ fronts [] items, isRest e.2 = true → ∀ p ∈ e.1, isField p = true

theorem mem_fieldPlaces :
    n ∈ fieldPlaces items ↔ ∃ p, items[n]? = some p ∧ isField p = true := by
  simp [fieldPlaces, List.mem_zipIdx_iff_getElem?]

theorem fieldPlaces_eq_range (h : ∀ p ∈ items, isField p = true) :
    fieldPlaces items = List.range items.length := by
  have hall : (items.zipIdx.filter fun p => isField p.1) = items.zipIdx := by
    rw [List.filter_eq_self]
    intro p hp
    exact h p.1 (List.mem_of_getElem? (List.mem_zipIdx_iff_getElem?.1 hp))
  rw [fieldPlaces, hall, List.zipIdx_map_snd, List.range_eq_range']

/-- The places that a rest leaves out are written as strings. -/
theorem mapM_excluded_index (other : String → String) (ns : List Nat) :
    (ns.map fun n => (FieldKey.index n).excluded).mapM (PropertyKey.ofLiteral? other) =
      some (ns.map toString) := by
  rw [mapM_eq_some_iff, List.map_map, List.map_map]
  apply List.map_congr_left
  intro n _
  exact PropertyKey.ofLiteral?_quoted other (toString n)
    (PropertyKey.isPlain_of_isNumeric (PropertyKey.isNumeric_toString n))

theorem field_local? (other : String → String) (target : String) (default : Option String)
    (n : Nat) (props : Props V) :
    (Derived.field target (toString n) default).local? other props =
      some ⟨target, .value (props.lookup (PropertyKey.number other (toString n))), default⟩ := by
  rw [Derived.local?, PropertyKey.ofLiteral?_toString, Option.map_some]

theorem rest_local? (other : String → String) (target : String) (ns : List Nat)
    (values : List V) :
    (Derived.rest target (ns.map fun n => (FieldKey.index n).excluded) .array).local? other
        (Props.ofArray values) =
      some ⟨target, .array ((values.zipIdx.filter fun p => !ns.contains p.2).map Prod.fst),
        none⟩ := by
  rw [Derived.local?, mapM_excluded_index, Option.map_some, ← values_without]

theorem itemLocal?_isSome (hbs : arrayBindings? 0 items = some bs) (values : List V) :
    ((places items).mapM (itemLocal? source values)).isSome := by
  apply mapM_isSome
  intro e he
  rcases item_cases hbs he with ⟨target, default, -, -, hlocal⟩ | ⟨target, -, -, hlocal⟩
  · rw [hlocal]
    rfl
  · rw [hlocal]
    rfl

def only (n : Nat) : List Bool :=
  List.replicate n false ++ [true]

/-- No other key finds the one `true` of the array. -/
theorem lookup_only_ne {key : String} (h : key ≠ toString n) :
    (Props.ofArray (only n)).lookup key ≠ some true := by
  intro hlookup
  obtain ⟨before, after, heq, -⟩ := List.lookup_eq_some_iff.1 hlookup
  have hmem : (key, true) ∈ Props.ofArray (only n) := by simp [heq]
  obtain ⟨m, rfl, hm⟩ := mem_ofArray.1 hmem
  rw [Ne, PropertyKey.toString_inj] at h
  rw [only, List.getElem?_append] at hm
  split at hm
  · simp [List.getElem?_replicate] at hm
  · next hlt =>
    rw [List.length_replicate] at hm hlt
    have hpos : m - n ≠ 0 := by omega
    simp [hpos] at hm

/-- A place binds a name, unless it is a hole. -/
theorem mem_places (h : items[n]? = some p)
    (hhole : isHole p = false) : ∃ e ∈ places items, e.1.length = n ∧ e.2 = p := by
  obtain ⟨hn, hp⟩ := List.getElem?_eq_some_iff.1 h
  refine ⟨(items.take n, p), List.mem_filter.2 ⟨mem_fronts.2 ⟨items.take n, items.drop (n + 1), ?_,
    rfl⟩, by simp [hhole]⟩, by simp; omega, rfl⟩
  rw [← hp, ← List.drop_eq_getElem_cons hn, List.take_append_drop]

/-- A place that is not spelled as the key it denotes is read from elsewhere. -/
theorem place_spelled (hbs : arrayBindings? 0 items = some bs) (h : ∀ n : Nat, ∀ e ∈ places items,
      (itemLocal? source (only n) e).map (Local.entry false) =
        ((itemDerived? source e).bind (Derived.local? other (Props.ofArray (only n)))).map
          (Local.entry false)) (hn : n ∈ fieldPlaces items) :
    PropertyKey.number other (toString n) = toString n := by
  by_contra hne
  obtain ⟨p, hp, hfield⟩ := mem_fieldPlaces.1 hn
  have hhole : isHole p = false ∧ isRest p = false := by simpa [isField] using hfield
  obtain ⟨e, he, hlength, rfl⟩ := mem_places hp hhole.1
  have hentry := h n e he
  rcases item_cases hbs he with ⟨target, default, -, hderived, hlocal⟩ | ⟨target, hrest, -⟩
  · have hheld : (only n)[n]? = some true := by simp [only]
    have hmiss := lookup_only_ne hne
    rw [hlocal, hderived, Option.bind_some, hlength, field_local?, hheld] at hentry
    cases hread : (Props.ofArray (only n)).lookup (PropertyKey.number other (toString n)) with
    | none =>
      rw [hread] at hentry
      cases default <;> simp [Local.entry, Local.settle] at hentry
    | some v =>
      rw [hread] at hentry hmiss
      simp [Local.entry, Local.settle] at hentry
      simp [← hentry] at hmiss
  · exact absurd hrest (by simp [hhole.2])

/-- A rest behind a place that is no field holds too much. -/
theorem restsFollowFields_of_agree (hbs : arrayBindings? 0 items = some bs)
    (h : ∀ n : Nat, ∀ e ∈ places items,
      (itemLocal? source (List.replicate n true) e).map (Local.entry false) =
        ((itemDerived? source e).bind
          (Derived.local? other (Props.ofArray (List.replicate n true)))).map
            (Local.entry false)) : RestsFollowFields items := by
  intro e hmem hrest p hp
  by_contra hfield
  have hhole : isHole e.2 = false := by
    cases hpattern : e.2 <;> simp_all [isRest, isHole]
  have he : e ∈ places items := List.mem_filter.2 ⟨hmem, by simp [hhole]⟩
  -- An array that ends where the rest starts has nothing left for it.
  have hentry := h e.1.length e he
  rcases item_cases hbs he with ⟨target, default, hisField, -⟩ | ⟨target, -, hderived, hlocal⟩
  · simp [isField, hrest] at hisField
  · rw [hlocal, hderived, Option.bind_some, rest_local?] at hentry
    obtain ⟨m, hm⟩ := List.getElem?_of_mem hp
    have hnot : m ∉ fieldPlaces e.1 := by
      rw [mem_fieldPlaces]
      rintro ⟨q, hq, hqfield⟩
      rw [hm, Option.some.injEq] at hq
      exact hfield (hq ▸ hqfield)
    have hlt : m < e.1.length := (List.getElem?_eq_some_iff.1 hm).1
    have hkept : (true, m) ∈ (List.replicate e.1.length true).zipIdx.filter
        fun p => !(fieldPlaces e.1).contains p.2 := by
      simp [List.mem_filter, List.mem_zipIdx_iff_getElem?, hlt, hnot]
    have hempty : ((List.replicate e.1.length true).zipIdx.filter
        fun p => !(fieldPlaces e.1).contains p.2) = [] := by
      simpa [Local.entry, Local.settle] using hentry
    rw [hempty] at hkept
    cases hkept

/-- Unpacking an array binds what destructuring binds, exactly if its places are spelled as the keys
they denote and only fields stand in front of a rest. -/
theorem array_agree_iff {items : List Pattern} {bs : List Binding}
    (hbs : arrayBindings? 0 items = some bs) :
    (∀ (V : Type) (defaults : Env V → String → V) (values : List V),
      evaluate? other defaults (Props.ofArray values) (derivedFrom source .array [] bs) =
        ((places items).mapM (itemLocal? source values)).map (bindAll defaults [])) ↔
      (∀ n ∈ fieldPlaces items, PropertyKey.number other (toString n) = toString n) ∧
        RestsFollowFields items := by
  have hds : (places items).mapM (itemDerived? source) =
      some (derivedFrom source .array [] bs) :=
    places_mapM_itemDerived? [] hbs
  constructor
  · intro h
    have hentries (values : List Bool) (e : List Pattern × Pattern) (he : e ∈ places items) :=
      entry_eq_of_evaluate?_eq hds false (itemLocal?_isSome hbs values)
        (h Bool (fun _ _ => false) values) he
    exact ⟨fun n hn => place_spelled hbs (fun n => hentries (only n)) hn,
      restsFollowFields_of_agree hbs fun n => hentries (List.replicate n true)⟩
  · rintro ⟨hspelled, hrests⟩ V defaults values
    apply evaluate?_eq_of_forall hds
    intro e he
    obtain ⟨hmem, -⟩ := List.mem_filter.1 he
    obtain ⟨before, after, hitems, hbefore⟩ := mem_fronts.1 hmem
    rcases item_cases hbs he with ⟨target, default, hfield, hderived, hlocal⟩ |
      ⟨target, hrest, hderived, hlocal⟩
    · have hplace : e.1.length ∈ fieldPlaces items := by
        rw [mem_fieldPlaces]
        exact ⟨e.2, by simp [hitems, hbefore], hfield⟩
      rw [hlocal, hderived, Option.bind_some, field_local?, hspelled _ hplace, lookup_ofArray]
    · rw [hlocal, hderived, Option.bind_some, rest_local?,
        fieldPlaces_eq_range (hrests e hmem hrest), filter_range_zipIdx]

end RefSugar.Unpack

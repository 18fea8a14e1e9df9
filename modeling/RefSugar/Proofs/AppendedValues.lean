import RefSugar.Proofs.WalkedAreas

/-! Which references of a script get their value appended, by the tree alone. Main statement: exactly
those whose name is declared, in the first area around that declares it, by a value to unwrap, that are
not meant as references themselves, and that stand outside of the attributes that are left alone. -/
namespace RefSugar.Lexical

open Syntax Walk

variable {name : String} {span : Span} {e : Expr} {id : Ident} {path : List Scope}

/-! ### What is meant as a reference -/

section Meant

variable {s : Setting} {a : Span}

/-- The test of a declared name, by its characters. -/
theorem isSigilName_iff : Sigil.isSigilName name = true ↔ SigilBehind name := by
  simp only [Sigil.isSigilName, Sigil.endsWithSigil, Bool.and_eq_true, decide_eq_true_eq, beq_iff_eq,
    ← String.length_toList, SigilBehind]
  constructor
  · rintro ⟨hlength, hlast⟩
    obtain ⟨word, hword⟩ := List.getLast?_eq_some_iff.mp hlast
    refine ⟨word, ?_, hword⟩
    rintro rfl
    simp [hword] at hlength
  · rintro ⟨word, hne, hword⟩
    have hpos := List.length_pos_iff.mpr hne
    rw [hword]
    simp
    omega

theorem isExplicitWrap_iff {text : List Char} :
    Sigil.isExplicitWrap (String.ofList text) = true ↔ text = ['$', '$'] := by
  rw [Sigil.isExplicitWrap, beq_iff_eq, ← String.toList_inj, String.toList_ofList]
  rfl

theorem isAutoWrapCall_iff {text : List Char} : Sigil.isAutoWrapCall (String.ofList text) = true ↔
    text.getLast? = some '$' ∧ text ≠ ['$', '$'] := by
  rw [Sigil.isAutoWrapCall, Bool.and_eq_true, Bool.not_eq_true', ← Bool.not_eq_true,
    isExplicitWrap_iff, Sigil.endsWithSigil, beq_iff_eq, String.toList_ofList]

/-- A call means its first argument, or all that is wrapped in its arguments. -/
theorem means_call {chain : List Span} {settled : Bool} {link : Link} {callee : Expr}
    {args : List Item} : a ∈ Visit.explicit s (.expr chain settled (.call span link callee args)) ↔
      (Site.expr (.call span link callee args)).Means s.source a := by
  simp only [Visit.explicit, Setting.text, isExplicitWrap_iff, isAutoWrapCall_iff]
  by_cases htext : textUnder s.source callee.span = ['$', '$']
  · rw [if_pos htext]
    constructor
    · intro ha
      cases args with
      | nil => simp at ha
      | cons arg args =>
        obtain ⟨e, he, rfl⟩ : ∃ e, arg.expr? = some e ∧ e.span = a := by simpa using ha
        exact .explicit htext he
    · intro h
      cases h with
      | explicit _ harg => simp [harg]
      | argument hne => exact absurd htext hne
  · rw [if_neg htext]
    constructor
    · intro ha
      split at ha
      · next hsigil =>
        obtain ⟨leaf, hleaf, rfl⟩ := List.mem_map.mp ha
        obtain ⟨e, he, hleaf⟩ := mem_itemLeaves.mp hleaf
        exact .argument htext hsigil.1 he (mem_leaves_iff.mp hleaf)
      · cases ha
    · intro h
      cases h with
      | explicit heq _ => exact absurd heq htext
      | argument _ hsigil he hleaf =>
        rw [if_pos ⟨hsigil, htext⟩]
        exact List.mem_map_of_mem (mem_itemLeaves.mpr ⟨_, he, mem_leaves_iff.mpr hleaf⟩)

theorem isFunctionValue_iff : isFunctionValue e = true ↔ IsFunction e := by
  constructor
  · intro h
    cases e with
    | arrow | arrowTo | function => constructor
    | _ => cases h
  · intro h
    cases h <;> rfl

theorem means_function {name : Ident} {fn : Func} :
    a ∈ Visit.explicit s (.stmt (.function span name fn)) ↔
      (Site.stmt (.function span name fn)).Means s.source a := by
  obtain ⟨decorators, params, body⟩ := fn
  rw [Visit.explicit, List.mem_ite_nil_right, isSigilName_iff, List.mem_map]
  constructor
  · rintro ⟨hname, leaf, hleaf, rfl⟩
    obtain ⟨place, e, he, hleaf⟩ := mem_returnLeaves.mp hleaf
    exact .result hname he (mem_leaves_iff.mp hleaf)
  · intro h
    cases h with
    | result hname he hleaf =>
      exact ⟨hname, _, mem_returnLeaves.mpr ⟨_, _, he, mem_leaves_iff.mpr hleaf⟩, rfl⟩

theorem means_named :
    a ∈ Visit.explicit s (.attr (.named (.plain id) true (some e))) ↔
      (Site.attr (.named (.plain id) true (some e))).Means s.source a := by
  rw [Visit.explicit, List.mem_ite_nil_right, Sigil.isSigilAttribute, Bool.and_eq_true,
    isSigilName_iff, bne_iff_ne, List.mem_map]
  constructor
  · rintro ⟨⟨hname, htwo⟩, leaf, hleaf, rfl⟩
    exact .attr hname htwo (mem_leaves_iff.mp hleaf)
  · intro h
    cases h with
    | attr hname htwo hleaf => exact ⟨⟨hname, htwo⟩, _, mem_leaves_iff.mpr hleaf, rfl⟩

theorem means_declared {place : Place} {kind : VarKind} :
    a ∈ Visit.explicit s (.declarator place (.mk span (.name id) (some e))) ↔
      (Site.declarator kind (.mk span (.name id) (some e))).Means s.source a := by
  rw [Visit.explicit, List.mem_ite_nil_right, Bool.and_eq_true, isSigilName_iff, isFunctionValue_iff,
    List.mem_map]
  constructor
  · rintro ⟨⟨hname, he⟩, leaf, hleaf, rfl⟩
    exact .value hname he (mem_leaves_iff.mp hleaf)
  · intro h
    cases h with
    | value hname he hleaf => exact ⟨⟨hname, he⟩, _, mem_leaves_iff.mpr hleaf, rfl⟩

/-- What a visit means as a reference is what its site means. -/
theorem means_iff {v : Visit} : a ∈ v.explicit s ↔ (site v).Means s.source a := by
  have hnone {v : Visit} (h : v.explicit s = []) (hsite : ¬ (site v).Means s.source a) :
      a ∈ v.explicit s ↔ (site v).Means s.source a :=
    iff_of_false (by simp [h]) hsite
  cases v with
  | expr chain settled e =>
    cases e with
    | call span link callee args => exact means_call
    | _ => exact hnone rfl (by rintro ⟨⟩)
  | stmt st =>
    cases st with
    | function span name fn => exact means_function
    | _ => exact hnone rfl (by rintro ⟨⟩)
  | attr attr =>
    cases attr with
    | spread e => exact hnone rfl (by rintro ⟨⟩)
    | named name braced value =>
      cases name with
      | qualified => exact hnone rfl (by rintro ⟨⟩)
      | plain id =>
        cases braced <;> cases value
        case true.some => exact means_named
        all_goals exact hnone rfl (by rintro ⟨⟩)
  | declarator place d =>
    obtain ⟨span, target, _ | init⟩ := d
    · exact hnone (by cases target <;> rfl) (by rintro ⟨⟩)
    · cases target with
      | name id => exact means_declared
      | _ => exact hnone rfl (by rintro ⟨⟩)
  | _ => exact hnone rfl (by rintro ⟨⟩)

end Meant

/-! ### Mentions and visits -/

section Mentions

variable {ps : List Piece} {s s' : Setting} {v v' : Visit} {m : Mention}

/-- A name is mentioned in what a walk comes to. -/
theorem visits_of_occurs (h : Occurs ps path m) :
    .event (.mention m) ∈ ps ∨ ∃ s v, Visits ps s v ∧ .event (.mention m) ∈ v.pieces s := by
  induction h with
  | event hev => exact .inl hev
  | @outer _ s v _ _ hv _ ih =>
    have hsub : v.outer s ⊆ v.pieces s := fun _ => List.mem_append_left _
    refine .inr ?_
    rcases ih with hev | ⟨t, w, hw, hev⟩
    · exact ⟨s, v, .here hv, hsub hev⟩
    · exact ⟨t, w, .further hv (visits_append.mpr (.inl hw)), hev⟩
  | @inner _ s v S _ _ hv hS _ ih =>
    have hpieces : v.pieces s = v.outer s ++ S.pieces := by simp [Visit.pieces, hS]
    refine .inr ?_
    rcases ih with hev | ⟨t, w, hw, hev⟩
    · exact ⟨s, v, .here hv, hpieces ▸ List.mem_append_right _ hev⟩
    · exact ⟨t, w, .further hv (hpieces ▸ visits_append.mpr (.inr hw)), hev⟩

theorem occurs_of_pieces (hv : .part s v ∈ ps) (h : Occurs (v.pieces s) path m) :
    ∃ path, Occurs ps path m := by
  rw [Visit.pieces, occurs_append] at h
  rcases h with h | h
  · exact ⟨path, .outer hv h⟩
  · cases hS : v.scope? s with
    | none =>
      simp only [hS, Option.toList_none, List.flatMap_nil] at h
      cases h with
      | event h | outer h _ | inner h _ _ => cases h
    | some S => exact ⟨path ++ [S], .inner hv hS (by simpa [hS] using h)⟩

theorem occurs_of_visits (h : Visits ps s v) (hm : .event (.mention m) ∈ v.pieces s) :
    ∃ path, Occurs ps path m := by
  induction h with
  | here hv => exact occurs_of_pieces hv (.event hm)
  | further hv _ ih =>
    obtain ⟨path, hpath⟩ := ih hm
    exact occurs_of_pieces hv hpath

/-- A name is mentioned by its own visit, or without a chain. -/
theorem mention_of_piece (hm : .event (.mention m) ∈ v.pieces s) :
    m.isExempt = s.isExempt ∧ (m.chain = [] ∨ ∃ settled, v = .expr m.chain settled (.name m.id)) := by
  rw [pieces_eq, List.mem_append, event_mem_events] at hm
  have hown : .mention m ∉ v.own s := fun h => by simpa [Event.names] using (own_wraps v).names _ h
  rcases mention_cases (hm.resolve_left hown) with ⟨chain, settled, id, rfl, rfl⟩ |
    ⟨_, _, _, _, _, rfl⟩ | ⟨_, _, rfl⟩ | ⟨_, _, rfl⟩ | ⟨_, _, _, rfl⟩
  · exact ⟨rfl, .inr ⟨settled, rfl⟩⟩
  all_goals exact ⟨rfl, .inl rfl⟩

/-- The setting changes where an attribute is left alone. -/
theorem setting_of_part (h : .part s' v' ∈ v.pieces s) :
    s' = s ∨ ∃ name braced value, v = .attr (.named name braced (some value)) ∧
      s' = { s with isExempt := s.isExempt || s.isExemptAttr name } ∧ v' = .expr [] false value := by
  have hunder := (v.pieces_inside s s' v' h).1
  cases v with
  | attr a =>
    cases a with
    | spread e =>
      cases hunder
      exact .inl rfl
    | named name braced value =>
      rw [pieces_eq, List.mem_append] at h
      obtain ⟨rfl, e, he, rfl⟩ := part_mem_values.mp (h.resolve_left part_not_mem_events)
      obtain rfl := Option.mem_toList.mp he
      exact .inr ⟨name, braced, e, rfl, rfl, rfl⟩
  | _ =>
    cases hunder
    exact .inl rfl

/-- Where a name is exempt, an attribute around it is left alone. -/
theorem exempt_of_visits (hroot : ∀ s v, .part s v ∈ ps → s.isExempt = false) (h : Visits ps s v)
    (hexempt : s.isExempt = true) : ∃ t name braced value,
      Visits ps t (.attr (.named name braced (some value))) ∧ t.isExemptAttr name = true ∧
        Visits [.part { t with isExempt := true } (.expr [] false value)] s v := by
  refine Visits.downward (motive := fun s v => s.isExempt = true → ∃ t name braced value,
    Visits ps t (.attr (.named name braced (some value))) ∧ t.isExemptAttr name = true ∧
      Visits [.part { t with isExempt := true } (.expr [] false value)] s v) ?_ ?_ h hexempt
  · intro s v hv hexempt
    simp [hroot s v hv] at hexempt
  · intro s v hvisits ih s' v' hv hexempt
    cases hs : s.isExempt with
    | true =>
      obtain ⟨t, name, braced, value, hattr, hleft, hinner⟩ := ih hs
      exact ⟨t, name, braced, value, hattr, hleft, hinner.part hv⟩
    | false =>
      rcases setting_of_part hv with rfl | ⟨name, braced, value, rfl, rfl, rfl⟩
      · simp [hs] at hexempt
      · have hleft : s.isExemptAttr name = true := by simpa [hs] using hexempt
        refine ⟨s, name, braced, value, hvisits, hleft, .here ?_⟩
        simp [hs, hleft]

/-- All that stands in an attribute that is left alone is exempt. -/
theorem visits_exempt (hroot : ∀ s v, .part s v ∈ ps → s.isExempt = true) (h : Visits ps s v) :
    s.isExempt = true := by
  refine Visits.downward (motive := fun s _ => s.isExempt = true) hroot ?_ h
  intro s v _ hs s' v' hv
  rcases setting_of_part hv with rfl | ⟨name, braced, value, rfl, rfl, rfl⟩
  · exact hs
  · simp [hs]

end Mentions

/-! ### Scripts -/

/-- The innermost area that declares the name decides. -/
theorem bindsUnwrap_cons {source : List Char} {ignore : List String} {A : Area}
    {outer : List Area} : BindsUnwrap source ignore name (A :: outer) ↔
      Has source ignore A .unwrap name ∧ ¬ Has source ignore A .known name ∨
        (∀ kind, ¬ Has source ignore A kind name) ∧ BindsUnwrap source ignore name outer := by
  constructor
  · intro h
    cases h with
    | here hunwrap hknown => exact .inl ⟨hunwrap, hknown⟩
    | outer hnone h => exact .inr ⟨hnone, h⟩
  · rintro (⟨hunwrap, hknown⟩ | ⟨hnone, h⟩)
    · exact .here hunwrap hknown
    · exact .outer hnone h

section Scripts

variable (o : Options) (session : Session) (base : Nat) (source : List Char) (stmts : List Stmt)

def scriptArea (stmts : List Stmt) : Area :=
  ⟨true, [], stmts.map .stmt⟩

theorem script_readIn : ReadIn source o.ignoreList (scriptPieces o source stmts) := by
  intro s v h
  obtain ⟨st, _, heq⟩ := List.mem_map.mp h
  obtain ⟨rfl, _⟩ := Piece.part.inj heq
  exact ⟨rfl, rfl⟩

theorem script_sites : sites (scriptPieces o source stmts) = stmts.map .stmt := by
  simp [sites, scriptPieces, site]

theorem script_same : Same source o.ignoreList (scriptScope o source stmts) (scriptArea stmts) := by
  refine Opens.same ⟨rfl, script_sites o source stmts, fun d => ?_⟩ (script_readIn o source stmts)
  simp [scriptScope, scriptPieces, stmtPieces, scriptArea]

/-- Scopes that declare the same as areas bind a name to unwrap like them. -/
theorem bindsUnwrap_iff {ignore : List String} {areas : List Area}
    (h : List.Forall₂ (Same source ignore) path areas) :
    Walk.BindsUnwrap name path ↔ BindsUnwrap source ignore name areas := by
  induction h with
  | nil => exact iff_of_false (by rintro ⟨⟩) (by rintro ⟨⟩)
  | cons hsame _ ih =>
    rw [Walk.bindsUnwrap_cons, bindsUnwrap_cons, ih]
    simp only [hsame _ _]

variable {o source stmts}

theorem visits_iff {q : Site} : Within source o.ignoreList (stmts.map .stmt) q ↔
    ∃ s v, Visits (scriptPieces o source stmts) s v ∧ site v = q := by
  constructor
  · intro h
    exact visits_of_within h (script_readIn o source stmts) (script_sites o source stmts)
  · rintro ⟨s, v, hv, rfl⟩
    rw [← script_sites o source stmts]
    exact within_of_visits hv (script_readIn o source stmts)

theorem explicit_iff_meant {a : Span} : Explicit (scriptPieces o source stmts) a ↔
    Meant source o.ignoreList (stmts.map .stmt) a := by
  constructor
  · rintro ⟨s, v, hv, ha⟩
    obtain ⟨b, rfl⟩ := hv.setting_eq
    exact ⟨site v, visits_iff.mpr ⟨_, v, hv, rfl⟩, means_iff.mp ha⟩
  · rintro ⟨q, hq, ha⟩
    obtain ⟨s, v, hv, rfl⟩ := visits_iff.mp hq
    obtain ⟨b, rfl⟩ := hv.setting_eq
    exact ⟨_, v, hv, means_iff.mpr ha⟩

/-- The head of an expression is found through members, calls and wrappings. -/
theorem heads_iff : e.head? = some id ↔ Heads id e := by
  constructor
  · intro h
    fun_induction Expr.head? e with
    | case1 id' =>
      cases h
      exact .name
    | case2 _ _ _ ih => exact .field (ih h)
    | case3 _ _ _ _ ih => exact .index (ih h)
    | case4 _ _ _ _ ih => exact .call (ih h)
    | case5 _ _ _ ih => exact .wrapped (ih h)
    | case6 => cases h
  · intro h
    induction h with
    | name => rfl
    | field _ ih | index _ ih | call _ ih | wrapped _ ih => exact ih

/-- A script mentions no name twice at one place. -/
theorem mention_unique (hnested : NestedIn source stmts) {path' : List Scope} {m m' : Mention}
    (hm : Occurs (scriptPieces o source stmts) path m)
    (hm' : Occurs (scriptPieces o source stmts) path' m') (hid : m'.id = m.id) :
    m'.chain = m.chain ∧ m'.isExempt = m.isExempt := by
  obtain ⟨new, hnew, _, hmentions⟩ := (scriptRun_walked o {} 0 source stmts).records
  have hnew : (scriptRun o {} 0 source stmts).references = new := hnew
  obtain ⟨ref, href, ⟨_, hspan, hchain, hexempt⟩, _⟩ := hmentions path m hm
  obtain ⟨ref', href', ⟨_, hspan', hchain', hexempt'⟩, _⟩ := hmentions path' m' hm'
  obtain rfl : ref' = ref := references_inj o {} 0 source stmts hnested (hnew ▸ href') (hnew ▸ href)
    (by rw [hspan, hspan', hid])
  exact ⟨hchain'.symm.trans hchain, hexempt'.symm.trans hexempt⟩

/-- A mention is explicit if it, or an expression that it heads, is meant as a reference. -/
theorem explicit_iff_isExplicit (hnested : NestedIn source stmts) {m : Mention}
    (hm : Occurs (scriptPieces o source stmts) path m) :
    (∃ a ∈ m.id.span :: m.chain, Explicit (scriptPieces o source stmts) a) ↔
      IsExplicit source o.ignoreList (stmts.map .stmt) m.id := by
  simp only [explicit_iff_meant]
  constructor
  · rintro ⟨a, ha, hmeant⟩
    rcases List.mem_cons.mp ha with rfl | ha
    · exact .inl hmeant
    · rcases visits_of_occurs hm with hev | ⟨s, v, hv, hev⟩
      · simp [scriptPieces, stmtPieces] at hev
      · obtain ⟨settled, rfl⟩ := (mention_of_piece hev).2.resolve_left (List.ne_nil_of_mem ha)
        have hroot (s : Setting) (chain : List Span) (settled : Bool) (e : Expr) :
            .part s (.expr chain settled e) ∈ scriptPieces o source stmts → chain = [] :=
          fun h => absurd h expr_not_mem_stmtPieces
        obtain ⟨t, chain, settled', e, he, hhead, rfl⟩ := heads_of_chain hroot hv rfl ha
        exact .inr ⟨e, visits_iff.mpr ⟨t, _, he, rfl⟩, heads_iff.mp hhead, hmeant⟩
  · rintro (hmeant | ⟨e, he, hheads, hmeant⟩)
    · exact ⟨_, List.mem_cons_self .., hmeant⟩
    · obtain ⟨s, v, hv, hsite⟩ := visits_iff.mp he
      obtain ⟨chain, settled, rfl⟩ : ∃ chain settled, v = .expr chain settled e := by
        cases v <;> cases hsite
        exact ⟨_, _, rfl⟩
      obtain ⟨chain', settled', hname, _, hspan⟩ := name_of_head hv (heads_iff.mpr hheads)
      -- the name is mentioned once only, with this chain
      obtain ⟨path', hm'⟩ := occurs_of_visits hname
        (m := { id := m.id, chain := chain', isExempt := s.isExempt })
        (by simp [Visit.pieces, Visit.outer, exprOuter, mention])
      obtain ⟨hchain, _⟩ := mention_unique hnested hm hm' rfl
      exact ⟨e.span, hchain ▸ hspan, hmeant⟩

theorem isExemptAttr_iff {s : Setting} {name : AttrName} :
    s.isExemptAttr name = true ↔ IsLeftAlone s.source s.options name := by
  cases name <;> simp [Setting.isExemptAttr, IsLeftAlone, Options.isExempt, Setting.text]

/-- A mention is exempt if it stands in the value of an attribute that is left alone. -/
theorem exempt_iff_isExempt (hnested : NestedIn source stmts) {m : Mention}
    (hm : Occurs (scriptPieces o source stmts) path m) : m.isExempt = true ↔
      IsExempt source o.ignoreList o (stmts.map .stmt) m.id := by
  have hread (b : Bool) (e : Expr) : ReadIn source o.ignoreList
      [.part { setting o source with isExempt := b } (.expr [] false e)] := by
    intro s v h
    obtain ⟨rfl, _⟩ := Piece.part.inj (List.mem_singleton.mp h)
    exact ⟨rfl, rfl⟩
  constructor
  · intro hexempt
    rcases visits_of_occurs hm with hev | ⟨s, v, hv, hev⟩
    · simp [scriptPieces, stmtPieces] at hev
    · have hroot (s : Setting) (v : Visit) (h : .part s v ∈ scriptPieces o source stmts) :
          s.isExempt = false := by
        obtain ⟨_, _, heq⟩ := List.mem_map.mp h
        obtain ⟨rfl, _⟩ := Piece.part.inj heq
        rfl
      obtain ⟨t, name, braced, value, hattr, hleft, hinner⟩ :=
        exempt_of_visits hroot hv ((mention_of_piece hev).1 ▸ hexempt)
      obtain ⟨path', hm'⟩ := occurs_of_visits hinner hev
      obtain ⟨b, rfl⟩ := hattr.setting_eq
      obtain ⟨areas, hid, _⟩ := (mentioned_of_occurs hm' (hread true value)).resolve_left (by simp)
      exact ⟨name, braced, value, areas, visits_iff.mpr ⟨_, _, hattr, rfl⟩,
        isExemptAttr_iff.mp hleft, hid⟩
  · rintro ⟨name, braced, value, areas, hattr, hleft, hid⟩
    obtain ⟨s, v, hv, hsite⟩ := visits_iff.mp hattr
    obtain rfl : v = .attr (.named name braced (some value)) := by
      cases v <;> cases hsite
      rfl
    obtain ⟨b, rfl⟩ := hv.setting_eq
    obtain ⟨path', m', hm', hid', _⟩ := occurs_of_mentioned hid (hread true value) rfl
    rcases visits_of_occurs hm' with hev | ⟨t, w, hw, hev⟩
    · simp at hev
    · have ht : t.isExempt = true := visits_exempt (fun s v h => by simp_all) hw
      have hpart : .part { setting o source with isExempt := true } (.expr [] false value) ∈
          Visit.pieces { setting o source with isExempt := b }
            (.attr (.named name braced (some value))) := by
        have hleft := isExemptAttr_iff (s := { setting o source with isExempt := b }).mpr hleft
        simp [Visit.pieces, Visit.outer, attrOuter, values, hleft]
      have hw' : Visits (scriptPieces o source stmts) t w := by
        rcases visits_part.mp hw with ⟨rfl, rfl⟩ | hw
        · exact hv.part hpart
        · exact (hv.part hpart).trans hw
      obtain ⟨path'', hm''⟩ := occurs_of_visits hw' hev
      obtain ⟨_, hexempt⟩ := mention_unique hnested hm hm'' hid'
      rw [← hexempt, (mention_of_piece hev).1, ht]

variable (o source stmts)

/-- The areas around a reference, what is meant as a reference and the attributes that are left alone
decide whether its value is appended. -/
theorem value_of_mentioned (hlexical : o.resolution = .lexical) (hnested : NestedIn source stmts)
    {areas : List Area}
    (hid : Mentioned source o.ignoreList (stmts.map .stmt) areas id) :
    (∃ ref ∈ (scriptRun o session base source stmts).references,
      ref.name = id.name ∧ ref.span = id.span) ∧
      (.insertAfter (base + id.span.hi) ".value" ∈ (script o session base source stmts).edits.edits ↔
        BindsUnwrap source o.ignoreList id.name (areas ++ [scriptArea stmts]) ∧
          ¬ IsExplicit source o.ignoreList (stmts.map .stmt) id ∧
          ¬ IsExempt source o.ignoreList o (stmts.map .stmt) id) := by
  obtain ⟨path, m, hm, rfl, hsame⟩ :=
    occurs_of_mentioned hid (script_readIn o source stmts) (script_sites o source stmts)
  obtain ⟨⟨ref, href, hname, hspan, _⟩, hvalue⟩ :=
    value_of_occurs o session base source stmts hlexical hnested hm
  have hareas := List.rel_append hsame (.cons (script_same o source stmts) .nil)
  refine ⟨⟨ref, href, hname, hspan⟩, ?_⟩
  rw [hvalue, bindsUnwrap_iff source hareas, ← explicit_iff_isExplicit hnested hm,
    ← exempt_iff_isExempt hnested hm]
  simp only [not_exists, not_and, Bool.not_eq_true]

/-- Where names are resolved by their scopes, the value is appended to a reference of the tree if and
only if the first area around it that declares its name declares it as a binding to unwrap and not
otherwise, neither the reference nor an expression whose head it is is meant as a reference, and it
stands outside of the attributes that are left alone. These are all the references that a walk
records. -/
theorem script_value_iff (hlexical : o.resolution = .lexical) (hnested : NestedIn source stmts) :
    (∀ areas id, Mentioned source o.ignoreList (stmts.map .stmt) areas id →
      (∃ ref ∈ (scriptRun o session base source stmts).references,
        ref.name = id.name ∧ ref.span = id.span) ∧
      (.insertAfter (base + id.span.hi) ".value" ∈ (script o session base source stmts).edits.edits ↔
        BindsUnwrap source o.ignoreList id.name (areas ++ [scriptArea stmts]) ∧
          ¬ IsExplicit source o.ignoreList (stmts.map .stmt) id ∧
          ¬ IsExempt source o.ignoreList o (stmts.map .stmt) id)) ∧
      ∀ ref ∈ (scriptRun o session base source stmts).references,
        ∃ areas, Mentioned source o.ignoreList (stmts.map .stmt) areas
          ⟨ref.name, ref.span⟩ := by
  refine ⟨fun areas id hid =>
    value_of_mentioned o session base source stmts hlexical hnested hid, fun ref href => ?_⟩
  obtain ⟨new, hnew, hrefs, _⟩ := (scriptRun_walked o session base source stmts).records
  have hnew : (scriptRun o session base source stmts).references = new := hnew
  obtain ⟨path, m, hm, ⟨hname, hspan, _⟩, _⟩ := hrefs ref (hnew ▸ href)
  obtain ⟨areas, hid, _⟩ := (mentioned_of_occurs hm (script_readIn o source stmts)).resolve_left
    (by simp [scriptPieces, stmtPieces])
  rw [script_sites] at hid
  exact ⟨areas, by rwa [hname, hspan]⟩

end Scripts

/-- The text of a script that uses a binding to unwrap, and a function with a parameter of that
name. -/
def shadowedText : List Char :=
  "let a = $b(); a; function f(a) \x7b return a \x7d".toList

def shadowedFunc : Func :=
  .mk [] [.mk [] (.name ⟨"a", ⟨28, 29⟩⟩)] [.ret ⟨33, 41⟩ (some (.name ⟨"a", ⟨40, 41⟩⟩))]

def shadowedArea : Area :=
  ⟨true, [.name ⟨"a", ⟨28, 29⟩⟩],
    [.pattern (.name ⟨"a", ⟨28, 29⟩⟩), .stmt (.ret ⟨33, 41⟩ (some (.name ⟨"a", ⟨40, 41⟩⟩)))]⟩

def shadowedStmts : List Stmt :=
  [.vars ⟨0, 13⟩ .lexical [.mk ⟨4, 12⟩ (.name ⟨"a", ⟨4, 5⟩⟩)
      (some (.call ⟨8, 12⟩ .plain (.name ⟨"$b", ⟨8, 10⟩⟩) []))],
    .expr ⟨14, 16⟩ (.name ⟨"a", ⟨14, 15⟩⟩), .function ⟨17, 43⟩ ⟨"f", ⟨26, 27⟩⟩ shadowedFunc]

/-- The value is appended to the name in the script, and not to the parameter. -/
theorem script_value_iff_parameter :
    NestedIn shadowedText shadowedStmts ∧
      (.insertAfter 15 ".value" ∈ (script {} {} 0 shadowedText shadowedStmts).edits.edits ∧
        BindsUnwrap shadowedText ({} : Options).ignoreList "a" [scriptArea shadowedStmts]) ∧
      .insertAfter 41 ".value" ∉ (script {} {} 0 shadowedText shadowedStmts).edits.edits := by
  have hnested : NestedIn shadowedText shadowedStmts :=
    .of_check 5 (by decide +kernel) (by decide +kernel)
  have hall := (script_value_iff {} {} 0 shadowedText shadowedStmts rfl hnested).1
  have hvalue : .insertAfter 15 ".value" ∈
      (script {} {} 0 shadowedText shadowedStmts).edits.edits := by decide +kernel
  have hused : Mentioned shadowedText ({} : Options).ignoreList (shadowedStmts.map .stmt) []
      ⟨"a", ⟨14, 15⟩⟩ :=
    .outside (List.mem_cons_of_mem _ (List.mem_cons_self ..)) (.own (List.mem_cons_self ..) (.name _))
  have hparam : Mentioned shadowedText ({} : Options).ignoreList (shadowedStmts.map .stmt)
      ([] ++ [shadowedArea]) ⟨"a", ⟨40, 41⟩⟩ := by
    refine .outside (List.mem_cons_of_mem _ (List.mem_cons_of_mem _ (List.mem_cons_self ..))) ?_
    refine .inside (q := .func shadowedFunc) (List.mem_cons_self ..) rfl ?_
    refine .outside (List.mem_cons_of_mem _ (List.mem_cons_self ..)) ?_
    exact .own (List.mem_cons_self ..) (.name _)
  refine ⟨hnested, ⟨hvalue, ((hall _ _ hused).2.mp hvalue).1⟩, fun hmem => ?_⟩
  have hknown : Has shadowedText ({} : Options).ignoreList shadowedArea .known "a" :=
    .inl ⟨rfl, _, List.mem_cons_self .., _, .name _, rfl⟩
  cases ((hall _ _ hparam).2.mp hmem).1 with
  | here _ h => exact h hknown
  | outer h _ => exact h .known hknown

end RefSugar.Lexical

import RefSugar.Proofs.ReadCalls
import RefSugar.Syntax.Parens

/-! The readers of classes, and of what stands in parentheses, keep their place. -/
namespace RefSugar.Syntax.Classes

variable {text : List Char}

theorem keeps_atProperty {lineEnd : Bool} : Keeps text (atProperty lineEnd) := by
  refine (keeps_whenTyped keeps_isAtAny).bind fun _ _ => ?_
  split
  · exact .pure trivial
  · refine keeps_isAtAny.bind fun _ _ => ?_
    split
    · exact .pure trivial
    · split
      · exact keeps_atStatementEnd
      · exact keeps_isAt

theorem keeps_acceptAccess : Keeps text acceptAccess := by
  refine keeps_acceptModifier.bind fun _ _ => ?_
  split
  · exact .pure trivial
  · exact .pure trivial

def MemberKey.Sited (text : List Char) (key : MemberKey) : Prop :=
  Cuts text key.span.lo ∧ Syntax.Sited text (.key key.key)

section Grammar

variable {g : Grammar} (hg : g.Sited text)
include hg

theorem reads_memberKey : Reads text (MemberKey.Sited text) (memberKey g) := by
  refine reads_token.bind fun t ht => ?_
  split
  · exact keeps_privateHash.seq <| reads_anyName.seq <|
      (reads_spanFrom ht.cuts_lo).bind fun _ hspan => .pure ⟨hspan.2.1, trivial, by simp⟩
  · exact hg.key.bind fun _ hkey => (reads_spanFrom ht.cuts_lo).bind fun _ hspan =>
      .pure ⟨hspan.2.1, hkey.2⟩

theorem reads_propertyTail {key : MemberKey} (hkey : key.Sited text) {marked : Bool}
    {decorators : List Expr} (hdecorators : ∀ e ∈ decorators, Sited text (.expr e)) :
    Reads text (fun m => Sited text (.member m)) (propertyTail g key marked decorators) := by
  unfold propertyTail
  extract_lets -underBinder rest
  have hrest u : Reads text (fun m => Sited text (.member m)) (rest u) := by
    unfold rest
    extract_lets -underBinder more
    have hmore u : Reads text (fun m => Sited text (.member m)) (more u) := by
      refine (Types.keeps_annotated hg).seq <| keeps_accept.bind fun _ _ => ?_
      extract_lets -underBinder later
      have hlater : ∀ value, (∀ e ∈ value, SitedExpr text e) →
          Reads text (fun m => Sited text (.member m)) (later value) := by
        intro value hvalue
        refine keeps_acceptStatementEnd.seq <| .pure ⟨trivial, ?_⟩
        simp +contextual [or_imp, forall_and, hkey.2, fun e he => (hvalue e he).2, hdecorators]
      clear_value later
      split
      · exact hg.assignment.allowIn.bind fun b hb => hlater _ (by simpa using hb)
      · exact hlater _ (by simp)
    clear_value more
    split
    · exact hmore _
    · exact (keeps_whenTyped keeps_accept).seq <| hmore _
  clear_value rest
  split
  · exact (reads_failAt hkey.1).fails
  · exact hrest _

theorem reads_constructorParam :
    Reads text (SitedPattern text) (constructorParam g) := by
  refine keeps_acceptAccess.seq <|
    keeps_acceptModifier.seq <| keeps_acceptModifier.seq <|
    reads_here.bind fun lo hlo =>
    (Patterns.reads_paramPattern hg).bind fun pattern hpattern => ?_
  extract_lets -underBinder rest
  have hrest u : Reads text (SitedPattern text) (rest u) :=
    .pure hpattern
  clear_value rest
  split
  · split
    · exact (reads_failAt hlo).fails
    · exact (reads_failAt hlo).fails
    · exact hrest _
  · exact hrest _

theorem reads_constructorRest : Reads text (SitedPattern text) (constructorRest g) :=
  hg.binding.bind fun target htarget =>
    (Types.keeps_annotated hg).seq <| .pure ⟨trivial, by simp [htarget]⟩

theorem reads_constructorTail : Reads text (fun m => Sited text (.member m)) (constructorTail g) :=
  (Types.keeps_optionalTypeParams hg).seq <| keeps_expect.seq <|
    (Patterns.reads_paramList hg (reads_constructorParam hg) (reads_constructorRest hg)).bind fun params hparams =>
    keeps_expect.seq <| (Types.keeps_annotated hg).seq <|
    (Functions.reads_body hg).bind fun stmts hstmts =>
    .pure ⟨trivial, by simp +contextual [or_imp, forall_and, hparams, Functions.sited_getD hstmts]⟩

theorem reads_methodTail {key : MemberKey} (hkey : key.Sited text) {decorators : List Expr}
    (hdecorators : ∀ e ∈ decorators, Sited text (.expr e)) {async generator : Bool} :
    Reads text (fun m => Sited text (.member m)) (methodTail g key decorators async generator) :=
  (Functions.reads_methodTail hg hdecorators).bind fun b hb =>
    .pure ⟨trivial, by simp [hkey.2, hb]⟩

/-- A member from its key on, whatever its modifiers. -/
theorem reads_keyedMember {lo : Nat} (hlo : Cuts text lo) {decorators : List Expr}
    (hdecorators : ∀ e ∈ decorators, Sited text (.expr e)) {isReadonly : Bool} :
    Reads text (fun m => Sited text (.member m)) (keyedMember g lo decorators isReadonly) := by
  refine (reads_memberKey hg).bind fun key hkey =>
    (keeps_whenTyped keeps_accept).seq <|
    Functions.keeps_atMethod.bind fun _ _ => ?_
  split
  · extract_lets -underBinder rest
    have hrest u : Reads text (fun m => Sited text (.member m)) (rest u) := by
      unfold rest
      split
      · exact reads_constructorTail hg
      · exact reads_methodTail hg hkey hdecorators
    clear_value rest
    split
    · exact (reads_failAt hlo).fails
    · exact hrest _
  · refine reads_token.bind fun _ _ => ?_
    extract_lets -underBinder word rest
    have hrest u : Reads text (fun m => Sited text (.member m)) (rest u) := by
      refine keeps_atProperty.bind fun _ _ => ?_
      split
      · exact reads_propertyTail hg hkey hdecorators
      · split
        · refine keeps_acceptModifier.seq <| keeps_accept.seq <|
            (reads_memberKey hg).bind fun key hkey => ?_
          extract_lets -underBinder more
          have hmore u : Reads text (fun m => Sited text (.member m)) (more u) := by
            unfold more
            extract_lets -underBinder later
            have hlater u : Reads text (fun m => Sited text (.member m)) (later u) :=
              reads_methodTail hg hkey hdecorators
            clear_value later
            split
            · exact hlater _
            · exact (keeps_whenTyped keeps_accept).seq <| hlater _
          clear_value more
          split
          · exact (reads_failAt hkey.1).fails
          · exact hmore _
        · split
          · exact (reads_memberKey hg).bind fun key hkey =>
              reads_methodTail hg hkey hdecorators
          · exact reads_unexpected
    clear_value rest
    split
    · exact keeps_atProperty.seq <| hrest _
    · exact hrest _

theorem reads_staticBlock : Reads text (fun m => Sited text (.member m)) (staticBlock g) :=
  hg.block.within.bind fun b hb => .pure ⟨trivial, by simp +contextual [hb]⟩

theorem reads_modifiedMember {lo : Nat} (hlo : Cuts text lo) {decorators : List Expr}
    (hdecorators : ∀ e ∈ decorators, Sited text (.expr e)) {isStatic : Bool} {access : Bool} :
    ReadsAny text (fun m => Sited text (.member m)) (modifiedMember g lo decorators isStatic access) := by
  refine keeps_read.bind fun _ _ => ?_
  extract_lets -underBinder rest
  have hrest u : ReadsAny text (fun m => Sited text (.member m)) (rest u) := by
    refine keeps_acceptModifier.seq <| reads_ahead.seq <|
      keeps_isAt.bind fun _ _ => ?_
    split
    · exact (reads_staticBlock hg).bind fun b hb => .pure (by simpa using hb)
    · refine keeps_isAtWord.bind fun _ _ => ?_
      split
      · exact keeps_advance.seq <| (reads_staticBlock hg).bind fun b hb =>
          .pure (by simpa using hb)
      · refine keeps_read.bind fun _ _ => ?_
        extract_lets -underBinder more
        have hmore u : ReadsAny text (fun m => Sited text (.member m)) (more u) := by
          refine keeps_accept.bind fun _ _ => ?_
          split
          · exact (reads_memberKey hg).bind fun key hkey =>
              (reads_methodTail hg hkey hdecorators).bind fun b hb => .pure (by simpa using hb)
          · exact (reads_keyedMember hg hlo hdecorators).bind fun b hb =>
              .pure (by simpa using hb)
        clear_value more
        split
        · split
          · exact hmore _
          · refine (Types.keeps_indexSignature? hg).bind fun _ _ => ?_
            split
            · exact .pure (by simp)
            · exact hmore _
        · exact hmore _
  clear_value rest
  split
  · exact (keeps_collect keeps_acceptModifier).seq <| hrest _
  · exact hrest _

theorem reads_wordMember {word : Ident} (hword : Cuts text word.span.lo) {decorators : List Expr}
    (hdecorators : ∀ e ∈ decorators, Sited text (.expr e)) {lineEnd : Bool} :
    ReadsAny text (fun m => Sited text (.member m)) (wordMember g word decorators lineEnd) := by
  unfold wordMember
  extract_lets -underBinder key
  have hkey : key.Sited text := ⟨hword, trivial, by simp [key]⟩
  refine Functions.keeps_atMethod.bind fun _ _ => ?_
  split
  · exact (reads_methodTail hg hkey hdecorators).bind fun b hb => .pure (by simpa using hb)
  · refine keeps_atProperty.seq <| (keeps_whenTyped keeps_isAt).bind fun _ _ =>
      ?_
    split
    · exact (keeps_whenTyped keeps_accept).seq <|
        (reads_propertyTail hg hkey hdecorators).bind fun b hb => .pure (by simpa using hb)
    · exact .pure (by simp)

/-- A member of any kind, or none. -/
theorem reads_member : ReadsAny text (fun m => Sited text (.member m)) (member g) := by
  refine reads_here.bind fun lo hlo => (hg.decorators _).bind fun decorators hdecorators =>
    reads_here.bind fun declaredAt hdeclaredAt =>
    (keeps_whenTyped keeps_acceptWord).bind fun declared _ =>
    keeps_acceptAccess.bind fun _ _ => ?_
  extract_lets -underBinder rest
  have hrest : ∀ declaredAt, Cuts text declaredAt →
      ReadsAny text (fun m => Sited text (.member m)) (rest declaredAt) := by
    intro declaredAt hword
    unfold rest
    extract_lets -underBinder more
    have hmore u : ReadsAny text (fun m => Sited text (.member m)) (more u) := by
      unfold more
      extract_lets -underBinder later word
      have hlater u : ReadsAny text (fun m => Sited text (.member m)) (later u) := by
        refine reads_here.bind fun staticAt hstaticAt => keeps_acceptWord.bind fun _ _ => ?_
        extract_lets -underBinder final
        have hfinal u : ReadsAny text (fun m => Sited text (.member m)) (final u) :=
          reads_modifiedMember hg hlo hdecorators
        clear_value final
        split
        · refine keeps_isAt.bind fun _ _ => ?_
          split
          · exact hfinal _
          · extract_lets -underBinder word
            refine (reads_wordMember hg hstaticAt hdecorators).bind fun b hb => ?_
            split
            · have hm := hb _ rfl
              exact .pure (by simpa using hm)
            · exact hfinal _
        · exact hfinal _
      clear_value later
      split
      · refine (reads_wordMember hg hword hdecorators).bind fun b hb => ?_
        split
        · have hm := hb _ rfl
          exact .pure (by simpa using hm)
        · exact hlater _
      · exact hlater _
    clear_value more
    split
    · exact hmore _
    · exact (keeps_whenTyped keeps_acceptWord).seq <| hmore _
  clear_value rest
  split
  · exact hrest _ hdeclaredAt
  · exact reads_here.bind fun _ hlater => hrest _ hlater

theorem reads_members : ReadsAll text (fun m => Sited text (.member m)) (members g) := by
  refine keeps_expect.seq <|
    (Reads.within (P := fun a => ∀ o ∈ a, ∀ m ∈ o, Sited text (.member m)) ?_).bind fun found hfound => ?_
  · refine Reads.collect ?_
    refine reads_token.bind fun _ _ => ?_
    split
    · exact .pure (by simp)
    · refine keeps_accept.bind fun _ _ => ?_
      split
      · exact .pure (by simp)
      · exact (reads_member hg).bind fun b hb => .pure (by simpa using hb)
  · refine reads_token.bind fun _ _ => ?_
    extract_lets -underBinder rest
    have hrest u : ReadsAll text (fun m => Sited text (.member m)) (rest u) :=
      .pure fun m hm => by
        obtain ⟨o, ho, heq⟩ := List.mem_filterMap.mp hm
        exact hfound o ho m heq
    clear_value rest
    split
    · exact hrest _
    · exact keeps_expect.seq <| hrest _

theorem reads_heritage : Reads text (fun e => Sited text (.expr e)) (heritage g) := by
  refine reads_here.bind fun lo hlo => reads_anyName.bind fun name hname =>
    (Calls.reads_links hg hlo hname.sited).bind fun b hb => ?_
  split
  · exact .pure (hb.2.child (by simp))
  · refine keeps_isAt.bind fun _ _ => ?_
    extract_lets -underBinder rest
    have hrest u : Reads text (fun e => Sited text (.expr e)) (rest u) := .pure hb.2
    clear_value rest
    split
    · exact hg.typeArgs.seq <| hrest _
    · exact hrest _

theorem reads_heritageList : ReadsAll text (fun e => Sited text (.expr e)) (heritageList g) := by
  refine Reads.collect ?_
  extract_lets -underBinder atEnd
  have hatEnd : Keeps text atEnd :=
    keeps_isAt.seq <| keeps_isAtWord.seq <| keeps_isAtWord.seq <|
      .pure trivial
  clear_value atEnd
  refine hatEnd.bind fun _ _ => ?_
  split
  · exact .pure (by simp)
  · refine (reads_heritage hg).bind fun e he => keeps_accept.bind fun _ _ => ?_
    extract_lets -underBinder rest
    have hrest u : ReadsAny text (fun e => Sited text (.expr e)) (rest u) := .pure (by simpa using he)
    clear_value rest
    split
    · exact hrest _
    · refine hatEnd.bind fun _ _ => ?_
      split
      · exact hrest _
      · exact keeps_expect.seq <| hrest _

theorem reads_superclass : Reads text (fun e => Sited text (.expr e)) (superclass g) := by
  refine hg.leftHand.bind fun b hb => ?_
  split
  · exact .pure (hb.2.child (by simp))
  · refine (keeps_whenTyped keeps_isAt).bind fun _ _ => ?_
    extract_lets -underBinder rest
    have hrest u : Reads text (fun e => Sited text (.expr e)) (rest u) := .pure hb.2
    clear_value rest
    split
    · exact hg.typeArgs.seq <| hrest _
    · exact hrest _

theorem reads_superclass? : ReadsAny text (fun e => Sited text (.expr e)) (superclass? g) := by
  refine keeps_acceptWord.bind fun _ _ => ?_
  split
  · exact (reads_superclass hg).bind fun b hb => .pure (by simpa using hb)
  · exact .pure (by simp)

theorem reads_implemented? : ReadsAll text (fun e => Sited text (.expr e)) (implemented? g) := by
  refine (keeps_whenTyped keeps_acceptWord).bind fun _ _ => ?_
  split
  · exact reads_heritageList hg
  · exact .pure (by simp)

theorem reads_tail {decorators : List Expr} (hdecorators : ∀ e ∈ decorators, Sited text (.expr e)) :
    Reads text (fun c => Sited text (.cls c)) (tail g decorators) := by
  refine (Types.keeps_optionalTypeParams hg).seq <|
    (reads_superclass? hg).bind fun first hfirst => ?_
  extract_lets -underBinder rest
  have hrest u : Reads text (fun c => Sited text (.cls c)) (rest u) :=
    (reads_superclass? hg).seq <|
      (reads_implemented? hg).bind fun implemented himplemented =>
      (reads_implemented? hg).seq <|
      (reads_superclass? hg).bind fun late hlate =>
      (reads_members hg).bind fun b hb =>
      .pure ⟨trivial, by
        cases first <;>
          simp_all +contextual [or_imp, forall_and]⟩
  clear_value rest
  split
  · refine (keeps_whenTyped keeps_accept).bind fun _ _ => ?_
    split
    · exact (reads_heritageList hg).seq <| hrest _
    · exact hrest _
  · exact hrest _

theorem reads_classWith {α : Type} {P : α → Prop} {decorators : List Expr}
    (hdecorators : ∀ e ∈ decorators, Sited text (.expr e)) {name : Reader α}
    (hname : Reads text P name) :
    Reads text (fun r => P r.1 ∧ Sited text (.cls r.2)) (classWith g decorators name) :=
  keeps_expectWord.seq <| Reads.within
    (hname.bind fun _ hfound => (reads_tail hg hdecorators).bind fun _ hcls => .pure ⟨hfound, hcls⟩)

end Grammar

end RefSugar.Syntax.Classes

namespace RefSugar.Syntax.Parens

variable {text : List Char}

def Entry.Sited (text : List Char) : Entry → Prop
  | .item i => SitedItem text i
  | .pattern p => Syntax.Sited text (.pattern p)

/-- Entries that were read as expressions become patterns at the same places. -/
theorem patternsOf_gives {entries : List Entry} (h : ∀ x ∈ entries, x.Sited text) :
    Patterns.Gives text (fun ps => ∀ p ∈ ps, Sited text (.pattern p)) (patternsOf entries) := by
  fun_induction patternsOf entries with
  | case1 => simp [Patterns.Gives]
  | case2 i =>
    have hi : SitedItem text i := h (.item i) (by simp)
    exact (Patterns.itemOf_gives hi.sited).bind fun p hp => List.forall_mem_singleton.mpr hp
  | case3 _ entries _ ih => exact ih fun x hx => h x (by simp [hx])
  | case4 _ entries ih => exact ih fun x hx => h x (by simp [hx])
  | case5 i entries _ _ ih =>
    have hi : SitedItem text i := h (.item i) (by simp)
    exact (Patterns.itemOf_gives hi.sited).bind fun p hp =>
      (ih fun x hx => h x (by simp [hx])).bind fun ps hps => List.forall_mem_cons.mpr ⟨hp, hps⟩
  | case6 p entries _ ih =>
    have hp : Sited text (.pattern p) := h (.pattern p) (by simp)
    exact (ih fun x hx => h x (by simp [hx])).bind fun ps hps =>
      List.forall_mem_cons.mpr ⟨hp, hps⟩

theorem reads_patterns {entries : List Entry} (h : ∀ x ∈ entries, x.Sited text) :
    ReadsAll text (SitedPattern text) (patterns entries) :=
  Patterns.reads_lift (patternsOf_gives h)

theorem reads_enclosed {lo : Nat} (hlo : Cuts text lo) {entries : List Entry}
    (h : ∀ x ∈ entries, x.Sited text) : Reads text (SitedExpr text) (enclosed lo entries) := by
  refine (Reads.mapM (R := SitedExpr text) fun x hx => ?_).bind fun parts hparts => ?_
  · have hentry := h x hx
    split
    · exact .pure (hentry _ rfl)
    · exact reads_failAt (hentry _ rfl).1
    · exact reads_failAt hlo
  · split
    · exact reads_failAt hlo
    · exact (reads_spanFrom hlo).bind fun _ hspan =>
        .pure ⟨hspan.2.1, hspan.2, by simpa using (hparts _ (by simp)).2⟩
    · rename_i first rest _
      have hlast : (first :: rest).getLast? = some (rest.getLastD first) := by
        rw [List.getLast?_cons, List.getLastD_eq_getLast?]
      have hsequence := sited_compound (@partsEnd_last text first.span.lo .sequence _ _ hlast)
        fun e he => (hparts e he).2
      exact (reads_spanFrom hlo).bind fun _ hspan =>
        .pure ⟨hspan.2.1, hspan.2, List.forall_mem_singleton.mpr hsequence⟩

section Grammar

variable {g : Grammar} (hg : g.Sited text)
include hg

theorem reads_branches :
    Reads text (fun r => SitedExpr text r.1 ∧ SitedExpr text r.2) (branches g) :=
  hg.assignment.within.bind fun _ hmiddle => keeps_expect.seq <|
    hg.assignment.within.bind fun _ hlast => .pure ⟨hmiddle, hlast⟩

theorem reads_entryMark {lo : Nat} (hlo : Cuts text lo) {entry : Item}
    (hentry : SitedItem text entry) :
    Reads text (fun r => SitedItem text r.1) (entryMark g lo entry) := by
  refine (keeps_whenTyped keeps_isAt).bind fun _ _ => ?_
  split
  · exact .pure hentry
  · refine reads_ahead.bind fun _ _ => ?_
    extract_lets -underBinder rest
    have hrest u : Reads text (fun r => SitedItem text r.1) (rest u) := by
      unfold rest
      split
      · rename_i e
        have he := hentry e rfl
        refine keeps_advance.seq <| (reads_branches hg).bind fun r hr => .pure ?_
        have hparts : ∀ x ∈ [e, r.1, r.2], Sited text (.expr x) := by
          simpa using ⟨he.2, hr.1.2, hr.2.2⟩
        simpa [SitedItem, Item.expr?] using ⟨hlo, sited_compound (partsEnd_last rfl) hparts⟩
      · exact .pure hentry
    clear_value rest
    split
    · refine keeps_advance.bind fun _ _ => ?_
      split
      · exact .pure hentry
      · exact .pure hentry
      · exact .pure hentry
      · exact (reads_failAt (hentry _ rfl).1).fails
      · exact (reads_failAt hlo).fails
    · exact hrest _

theorem keeps_entryType {pattern : Pattern} : Keeps text (entryType g pattern) := by
  unfold entryType
  split
  · exact .pure trivial
  · exact .pure trivial
  · exact .pure trivial
  · exact Types.keeps_annotated hg

theorem reads_arrowBetween {lo : Nat} (hlo : Cuts text lo) {async : Bool} {entries : List Entry}
    (h : ∀ x ∈ entries, x.Sited text) :
    ReadsAny text (SitedExpr text) (arrowBetween g lo async entries) := by
  refine (Types.keeps_resultType hg).seq <| keeps_expect.seq <|
    (reads_patterns h).bind fun ps hps =>
    (Functions.reads_arrowTail hg hlo hps).bind fun e he => keeps_read.seq <|
    keeps_isAt.bind fun _ _ => ?_
  split
  · exact .pure (by simp)
  · exact .pure (by simpa using he)

theorem keeps_arrowType : Keeps text (arrowType g) :=
  (Types.keeps_resultType hg).seq <| keeps_isAt.seq <| .pure trivial

variable {binary : Reader Expr} (hbinary : Reads text (SitedExpr text) binary)
  {finish : Nat → Expr → Reader Expr}
  (hfinish : ∀ lo e, Cuts text lo → SitedExpr text e → Reads text (SitedExpr text) (finish lo e))
include hbinary hfinish

theorem reads_entryItem {lo : Nat} (hlo : Cuts text lo) :
    Reads text (SitedItem text) (entryItem g binary finish lo) := by
  refine keeps_read.seq <| reads_token.seq <|
    reads_ahead.bind fun _ _ => ?_
  split
  · refine keeps_accept.bind fun _ _ => ?_
    split
    · exact hbinary.bind fun _ he => .pure (by simpa [SitedItem, Item.expr?] using he)
    · exact hbinary.bind fun e he => (hfinish lo e hlo he).bind fun _ hdone =>
        .pure (by simpa [SitedItem, Item.expr?] using hdone)
  · exact Literals.reads_item hg

theorem reads_entry : Reads text (Entry.Sited text) (entry g binary finish) := by
  refine reads_here.bind fun lo hlo => keeps_arrowStart.seq <|
    keeps_skipParamModifier.seq <|
    (reads_entryItem hg hbinary hfinish hlo).bind fun _ hitem =>
    (reads_entryMark hg hlo hitem).bind fun ⟨found, marked⟩ hfound =>
    (keeps_whenTyped keeps_isAt).bind fun _ _ => ?_
  split
  · refine (Patterns.reads_lift (Patterns.itemOf_gives (SitedItem.sited hfound))).bind
      fun pattern hpattern => (keeps_entryType hg).seq <| keeps_accept.bind fun _ _ => ?_
    split
    · exact hg.assignment.bind fun _ he => .pure ⟨trivial, by simp [hpattern, he.2]⟩
    · exact .pure hpattern
  · exact .pure hfound

theorem reads_entries : ReadsAll text (Entry.Sited text) (entries g binary finish) := by
  refine Reads.iterate (fun found hfound => keeps_isAt.bind fun _ _ => ?_) (by simp)
  split
  · exact .pure (by simp)
  · refine reads_here.bind fun lo hlo => (reads_entry hg hbinary hfinish).bind fun x hx => ?_
    have hall : ∀ y ∈ found ++ [x], y.Sited text := by
      simpa [or_imp, forall_and] using ⟨hfound, hx⟩
    generalize found ++ [x] = found at hall
    refine keeps_accept.bind fun _ _ => ?_
    extract_lets -underBinder rest
    have hrest : ∀ found, (∀ y ∈ found, y.Sited text) →
        ReadsAny text (fun found => ∀ y ∈ found, y.Sited text) (rest found) := by
      intro found hfound
      refine keeps_isAt.bind fun _ _ => ?_
      split
      · exact .pure (by simpa using hfound)
      · exact keeps_expect.seq <| .pure (by simpa using hfound)
    clear_value rest
    split
    · refine (reads_patterns hall).bind fun ps hps =>
        (Functions.reads_arrowTail hg hlo hps).bind fun e he => hrest _ ?_
      have hitem : Entry.Sited text (.item (.one e)) := by
        simpa [Entry.Sited, SitedItem, Item.expr?] using he
      simpa [or_imp, forall_and] using ⟨hall, hitem⟩
    · exact hrest _ hall

/-- Parentheses are read before it is known whether an arrow follows; both readings keep their
place. -/
theorem reads_parens {operators : Expr → Reader Expr}
    (hoperators : ∀ e, SitedExpr text e → Reads text (SitedExpr text) (operators e))
    {mayArrow : Bool} {asyncAt : Option Ident} (hasync : ∀ id ∈ asyncAt, Spelled text id) :
    Reads text (SitedExpr text) (parens g binary finish operators mayArrow asyncAt) := by
  refine keeps_read.bind fun _ _ => ?_
  extract_lets -underBinder rest
  have hrest : ∀ lo, Cuts text lo → Reads text (SitedExpr text) (rest lo) := by
    intro lo hlo
    unfold rest
    extract_lets -underBinder async
    refine (Reads.within (P := fun l => ∀ x ∈ l, Entry.Sited text x) ?_).bind
      fun entries hentries => ?_
    · exact keeps_expect.seq <| (reads_entries hg hbinary hfinish).bind fun _ hfound =>
        keeps_expect.seq <| .pure hfound
    · refine keeps_isAt.bind fun _ _ => ?_
      extract_lets -underBinder more
      have hmore u : Reads text (SitedExpr text) (more u) := by
        refine keeps_isAt.bind fun _ _ => ?_
        extract_lets -underBinder later
        have hlater u : Reads text (SitedExpr text) (later u) := by
          unfold later
          extract_lets -underBinder hasPattern
          refine keeps_isAt.bind fun _ _ => ?_
          split
          · refine reads_token.bind fun t _ => ?_
            extract_lets -underBinder final
            have hfinal u : Reads text (SitedExpr text) (final u) := by
              unfold final
              extract_lets -underBinder arrow
              have harrow u : Reads text (SitedExpr text) (arrow u) := by
                refine keeps_expect.seq <| (reads_patterns hentries).bind fun ps hps =>
                  (Functions.reads_arrowTail hg hlo hps).bind fun e he => ?_
                split
                · refine reads_token.bind fun _ _ => ?_
                  split
                  · exact hoperators _ he
                  · exact .pure he
                · exact .pure he
              clear_value arrow
              split
              · exact (reads_failAt hlo).fails
              · exact harrow _
            clear_value final
            split
            · exact (reads_failAt hlo).fails
            · exact hfinal _
          · split
            · have hid := hasync _ rfl
              extract_lets -underBinder items
              have hitems : ∀ i ∈ items, Sited text (.item i) := by
                intro i hi
                obtain ⟨x, hx, heq⟩ := List.mem_filterMap.mp hi
                have hx := hentries x hx
                cases x with
                | item j =>
                  cases heq
                  exact SitedItem.sited hx
                | pattern p => cases heq
              refine (reads_spanFrom hlo).bind fun _ hspan => .pure ⟨hspan.2.1, hspan.2, ?_⟩
              simpa using ⟨hid.sited.2, hitems⟩
            · exact reads_enclosed hlo hentries
        clear_value later
        split
        · exact (keeps_attempt (keeps_arrowType hg)).seq <| hlater _
        · exact hlater _
      clear_value more
      split
      · refine (reads_arrowBetween hg hlo hentries).attempt.bind fun found hfound => ?_
        split
        · exact .pure (hfound _ rfl)
        · exact hmore _
      · exact hmore _
  clear_value rest
  split
  · exact hrest _ (hasync _ rfl).cuts_lo
  · exact reads_here.bind fun lo hlo => hrest _ hlo

end Grammar

end RefSugar.Syntax.Parens

import RefSugar.Proofs.AnchoredEdits
import RefSugar.Proofs.FastPath

/-! Names that trigger nothing. The sigil in front of a name on the list of ignored names is kept,
whether the name is called or not. But a declaration compares the whole callee with the list, so it
takes the sigil of a longer callee that starts with such a name. Main statement: a word of a sigil
and an ignored name loses the sigil there, where the name is a sigil itself and called, and where
the operand at the end of a callee is missing, and nowhere else. -/
namespace RefSugar

open Syntax

/-- The empty name is never ignored. -/
theorem Options.ne_nil_of_ignored {o : Options} {name : List Char}
    (h : String.ofList name ∈ o.ignoreList) : name ≠ [] := by
  suffices hnone : "" ∉ o.ignoreList by
    rintro rfl
    exact hnone h
  unfold ignoreList
  refine List.foldlRecOn (motive := fun list => "" ∉ list) o.ignore _ (by decide) ?_
  intro list hlist configured _
  dsimp only
  split
  · exact hlist
  · rename_i hnew
    simp only [Bool.or_eq_true, not_or, Bool.not_eq_true] at hnew
    rw [List.mem_append, List.mem_singleton, not_or]
    refine ⟨hlist, fun hempty => ?_⟩
    rw [← hempty] at hnew
    exact absurd hnew.1 (by decide)

namespace Syntax

/-- A word that is written in two ways at one place is written in one. -/
theorem Spells.eq_of_append {raw chars word back rest : List Char} (h : Spells raw chars)
    (heq : raw ++ rest = word ++ back) (hword : ∀ c ∈ word, Text.isExtender c = true)
    (hrest : EndsName rest) (hback : EndsName back) : raw = word := by
  induction h generalizing word with
  | nil =>
    cases word with
    | nil => rfl
    | cons c word =>
      obtain rfl : rest = c :: (word ++ back) := heq
      simp [EndsName, hword c (by simp)] at hrest
  | @char c raw chars hc h ih =>
    cases word with
    | nil =>
      obtain rfl : c :: (raw ++ rest) = back := heq
      simp [EndsName, hc] at hback
    | cons d word =>
      obtain ⟨rfl, htail⟩ := List.cons_eq_cons.mp heq
      rw [ih htail fun c hc => hword c (List.mem_cons_of_mem _ hc)]
  | escape hp hlength h ih =>
    cases word with
    | nil =>
      rw [List.nil_append] at heq
      rw [← heq] at hback
      simp [EndsName] at hback
    | cons d word =>
      obtain rfl : '\\' = d := (List.cons_eq_cons.mp heq).1
      exact absurd (hword '\\' (by simp)) (by decide)

/-- The expression ends with an operand that is missing. -/
inductive Expr.EndsMissing : Expr → Prop
  | missing (span : Span) (parts : List Expr) : EndsMissing (.compound span .missing parts)
  | last {span : Span} {form : Form} {parts : List Expr} {e : Expr} (he : parts.getLast? = some e)
    (h : EndsMissing e) : EndsMissing (.compound span form parts)

def Node.isWhole : Node → Bool
  | .expr (.compound _ .missing _) => false
  | _ => true

theorem Expr.EndsMissing.not_whole {e : Expr} (h : e.EndsMissing) :
    ¬ Node.Everywhere Node.children (Node.isWhole · = true) (.expr e) := by
  intro hwhole
  induction h with
  | missing => exact Bool.noConfusion hwhole.here
  | last he _ ih => exact ih (hwhole.child (by simp [List.mem_of_getLast? he]))

/-- An expression ends where a word may end, unless the operand at its end is missing. -/
theorem Sited.closes {text : List Char} {e : Expr} (h : Sited text (.expr e)) :
    Closes text e.span.hi ∨ e.EndsMissing := by
  match e with
  | .name id => exact .inl (Spelled.closes h.here)
  | .compound span form parts =>
    rcases h.here with hcloses | rfl | ⟨last, hlast, hhi⟩
    · exact .inl hcloses
    · exact .inr (.missing span parts)
    · have hmem : last ∈ parts := List.mem_of_getLast? hlast
      have hpart : Sited text (.expr last) := h.child (by simp [hmem])
      have hsize := List.sizeOf_lt_of_mem hmem
      rcases hpart.closes with hcloses | hmissing
      · exact .inl (hhi ▸ hcloses)
      · exact .inr (.last hlast hmissing)
  | .field span _ _ | .index span _ _ _ | .call span _ _ _ | .keywordCall span _
  | .wrapped span _ _ | .assign span _ _ _ | .update span _ | .array span _ | .object span _
  | .function span _ _ | .arrow span _ _ | .arrowTo span _ _ | .classDef span _ _
  | .element span _ _ => exact .inl h.here.closes
termination_by sizeOf e

/-- A sigil and a name behind it stand in the text as a word, in front of `back`: no character that
could be part of a name stands in front of the sigil or behind the name. -/
structure SigilWord (text front name back : List Char) : Prop where
  text_eq : text = front ++ '$' :: name ++ back
  starts : front.getLast?.any Text.isExtender = false
  chars : ∀ c ∈ name, Text.isExtender c = true
  ends : EndsName back

namespace SigilWord

variable {text front name back : List Char}

/-- A sigil inside of the word ends no other one. -/
theorem not_closes (h : SigilWord text front name back) (init : List Char) {rest : List Char}
    {c : Char} (hname : name = init ++ c :: rest) (hlast : ('$' :: init).getLast? = some '$') :
    ¬ Closes text (Text.width front + Text.width ('$' :: init)) := by
  intro hcloses
  have hstops := hcloses (front ++ '$' :: init) (c :: rest ++ back) (by simp [h.text_eq, hname])
    (Text.width_append ..) (by rw [List.getLast?_append, hlast, Option.some_or])
  have hc : Text.isExtender c = true := h.chars c (by simp [hname])
  simp [StopsName, hc] at hstops

/-- What is written as a whole word where the sigil stands is the word. -/
theorem textUnder_eq (h : SigilWord text front name back) {id : Ident} (hid : Spelled text id)
    (hlo : id.span.lo = Text.width front) : textUnder text id.span = '$' :: name := by
  obtain ⟨_, before, raw, rest, htext, hopens, hhi, _, _, ⟨chars, hspells⟩, hends⟩ := hid
  have hsigil : Text.charAt? id.span.lo text = some '$' :=
    Text.charAt?_eq_some_iff.mpr ⟨front, name ++ back, by simp [h.text_eq], hlo.symm⟩
  have hbefore : id.span.lo = Text.width before := by
    refine hopens.resolve_right ?_
    rintro ⟨_, c, hc, hsign⟩
    obtain rfl : '$' = c := Option.some.inj (hsigil.symm.trans hc)
    exact absurd hsign (by decide)
  have hsplit : before ++ (raw ++ rest) = front ++ ('$' :: name ++ back) := by
    rw [← List.append_assoc, ← htext, h.text_eq, List.append_assoc]
  obtain ⟨rfl, hrest⟩ := Text.append_inj_of_width hsplit (hbefore.symm.trans hlo)
  have hraw : raw = '$' :: name :=
    hspells.eq_of_append hrest (List.forall_mem_cons.mpr ⟨by decide, h.chars⟩) hends h.ends
  have hslice : Text.slice? id.span.lo id.span.hi text = some ('$' :: name) :=
    Text.slice?_eq_some_iff.mpr ⟨before, back, h.text_eq, hlo.symm, hraw ▸ hhi⟩
  rw [textUnder, hslice, Option.getD_some]

/-- A word that starts in a part of a text, which is at its end or in front of a tag, stands in that
part. -/
theorem of_part {before part behind : List Char}
    (h : SigilWord (before ++ part ++ behind) front name back)
    (hbehind : behind = [] ∨ Document.closeTag <+: behind)
    (hlo : Text.width before ≤ Text.width front)
    (hhi : Text.width front < Text.width before + Text.width part) :
    ∃ inner rest, SigilWord part inner name rest ∧
      Text.width front = Text.width before + Text.width inner := by
  have hsplit : before ++ (part ++ behind) = front ++ ('$' :: name ++ back) := by
    rw [← List.append_assoc, h.text_eq, List.append_assoc]
  obtain ⟨inner, rfl, hinner⟩ := Text.append_split_of_width_le hsplit hlo
  rw [Text.width_append] at hhi
  obtain ⟨tail, rfl, htail⟩ := Text.append_split_of_width_le hinner.symm (by omega)
  have hfilled : tail ≠ [] := by
    rintro rfl
    simp at hhi
  -- the word does not go on behind the part
  obtain ⟨rest, rfl, rfl⟩ : ∃ rest, tail = '$' :: name ++ rest ∧ back = rest ++ behind := by
    rcases List.append_eq_append_iff.mp htail with ⟨rest, hrest, hback⟩ | ⟨rest, hword, hrest⟩
    · exact ⟨rest, hrest, hback⟩
    · cases rest with
      | nil => exact ⟨[], by simpa using hword.symm, by simpa using hrest.symm⟩
      | cons c rest =>
        have hc : c ∈ name := by
          cases tail with
          | nil => exact absurd rfl hfilled
          | cons d tail =>
            rw [(List.cons_eq_cons.mp hword).2]
            simp
        rcases hbehind with rfl | ⟨more, rfl⟩
        · cases hrest
        · obtain rfl : '<' = c := (List.cons_eq_cons.mp hrest).1
          exact absurd (h.chars '<' hc) (by decide)
  refine ⟨inner, rest, ⟨by simp, ?_, h.chars, ?_⟩, by rw [Text.width_append]⟩
  · have hstarts := h.starts
    cases hlast : inner.getLast? with
    | none => rfl
    | some c =>
      rw [List.getLast?_append, hlast, Option.some_or] at hstarts
      exact hstarts
  · have hends := h.ends
    cases rest with
    | nil => rfl
    | cons c rest => exact hends

end SigilWord

end Syntax

namespace Walk

section Visits

variable {s : Setting} {v : Visit} {front name back : List Char}

theorem Visit.Calls.sited {written : List Char} {callee : Expr} (h : v.Calls callee)
    (hnode : Sited written v.node) : Sited written (.expr callee) := by
  obtain ⟨chain, settled, span, link, args, rfl⟩ := h
  exact hnode.child (by simp)

theorem front_mem_pieces {place : Place} {span : Span} {target : Pattern} {init : Option Expr}
    {callee : Expr} (hcallee : unwrapCallee? s init = some callee)
    (htakes : takesSigil s target = true) :
    .event (stripLeading callee.span) ∈
      (Visit.declarator place (.mk span target init)).pieces s := by
  obtain ⟨event, hown⟩ := unwrapEvents?_of_takesSigil htakes place span.hi callee
  refine List.mem_append_left _ ?_
  simp [Visit.outer, declaratorOuter, hcallee, hown]

theorem erase_mem_pieces {callee : Expr} (h : v.Calls callee)
    (hexplicit : Sigil.isExplicitWrap (s.text callee.span) = true) :
    .event (.edit (.remove callee.span.lo callee.span.hi)) ∈ v.pieces s := by
  obtain ⟨chain, settled, span, link, args, rfl⟩ := h
  refine List.mem_append_left _ ?_
  simp [Visit.outer, exprOuter, callEvents, hexplicit]

/-- What a visit takes away, and why. -/
theorem triggers_of_remove {lo hi : Nat} (h : .event (.edit (.remove lo hi)) ∈ v.pieces s) :
    v.Triggers s (.edit (.remove lo hi)) := by
  rcases piece_event h with ⟨m, heq, _⟩ | ⟨place, name, heq⟩ | h
  · cases heq
  · cases heq
  · exact triggers_of_mem h

theorem Visit.Unwraps.sited {written : List Char} {callee : Expr} (h : v.Unwraps s callee)
    (hnode : Sited written v.node) : Sited written (.expr callee) := by
  cases h with
  | call => exact hnode.child (by simp)
  | @declared place span target init _ hcallee htakes =>
    obtain ⟨e, rfl, hdeclared⟩ :=
      Option.bind_eq_some_iff.mp (Option.filter_eq_some_iff.mp hcallee).1
    obtain ⟨called, args, hreach⟩ := reaches_declared e hdeclared
    have hvalue : Sited written (.expr e) := hnode.child (by simp)
    exact (hvalue.reached hreach).child (by simp)

/-- A callee that loses its sigil is more than a name, if the sigil is that of an ignored name. -/
theorem Visit.Unwraps.not_isName {callee : Expr} (h : v.Unwraps s callee)
    (hword : SigilWord s.source front name back) (hignored : String.ofList name ∈ s.ignore)
    (hsited : Sited s.source (.expr callee)) (hlo : callee.span.lo = Text.width front) :
    isName callee = false := by
  cases callee with
  | name id =>
    have hunder : textUnder s.source (Expr.name id).span = '$' :: name :=
      hword.textUnder_eq hsited.here hlo
    have hunwrap := h.isUnwrapCall
    rw [Setting.text, hunder] at hunwrap
    simp [Sigil.isUnwrapCall, hignored] at hunwrap
  | _ => rfl

/-- A name that loses its last byte ends where a word may end. -/
theorem closes_of_strips {written : List Char} (h : Sited written v.node) {id : Ident}
    (hid : id ∈ v.strips) : Closes written id.span.hi := by
  rcases strips_cases hid with ⟨span, fn, rfl, _⟩ | ⟨place, span, init, rfl, _⟩ | ⟨value, rfl, _⟩
  · exact Spelled.closes h.here
  · have hname : Sited written (.pattern (.name id)) := h.child (by simp)
    exact Spelled.closes hname.here
  · exact h.here.2

/-- Where `$$` goes away, as what may be a whole word, the name behind the sigil is a sigil. -/
theorem name_of_erased (hword : SigilWord s.source front name back) (hne : name ≠ []) {span : Span}
    (hexplicit : Sigil.isExplicitWrap (s.text span) = true) (hcloses : Closes s.source span.hi)
    (hlo : span.lo ≤ Text.width front) (hhi : Text.width front < span.hi) :
    name = ['$'] ∧ span.lo = Text.width front := by
  have htext : (s.text span).toList = ['$', '$'] := by
    rw [eq_of_beq hexplicit]
    rfl
  obtain ⟨a, b, hsource, hstart, hstop⟩ := text_split (by simp [htext] : (s.text span).toList ≠ [])
  rw [htext] at hsource hstop
  have htwo : Text.width ['$', '$'] = 2 := rfl
  have hone : Text.width ['$'] = 1 := rfl
  rw [htwo] at hstop
  rcases Nat.eq_or_lt_of_le hlo with hlo | hlo
  · -- more of a name behind the second sigil would go on the word that ends there
    have hsplit : a ++ ('$' :: '$' :: b) = front ++ ('$' :: name ++ back) := by
      rw [← List.append_assoc, ← hword.text_eq, hsource]
      simp
    obtain ⟨rfl, hrest⟩ := Text.append_inj_of_width hsplit (hstart.trans hlo)
    obtain ⟨c, rest, rfl⟩ := List.exists_cons_of_ne_nil hne
    obtain rfl : '$' = c := (List.cons_eq_cons.mp (List.cons_eq_cons.mp hrest).2).1
    cases rest with
    | nil => exact ⟨rfl, hlo⟩
    | cons d rest =>
      refine absurd hcloses ?_
      rw [← hstop]
      exact hword.not_closes ['$'] rfl rfl
  · -- the second sigil of the word is no first one
    have hsplit : (a ++ ['$']) ++ ('$' :: b) = front ++ ('$' :: name ++ back) := by
      rw [← List.append_assoc front, ← hword.text_eq, hsource]
      simp
    obtain ⟨rfl, _⟩ := Text.append_inj_of_width hsplit (by rw [Text.width_append, hone]; omega)
    have hstarts := hword.starts
    rw [List.getLast?_concat] at hstarts
    exact absurd hstarts (by decide)

/-- A visit that takes away the sigil of an ignored name: it unwraps a longer callee, or the name is
the sigil itself. Else the callee ends with a missing operand. -/
theorem takes_ignored (hword : SigilWord s.source front name back)
    (hignored : String.ofList name ∈ s.ignore) (hne : name ≠ []) (hnode : Sited s.source v.node)
    {lo hi : Nat} (hev : .event (.edit (.remove lo hi)) ∈ v.pieces s)
    (hlo : lo ≤ Text.width front) (hhi : Text.width front < hi) :
    (∃ callee, v.Unwraps s callee ∧ isName callee = false ∧ callee.span.lo = Text.width front) ∨
      (name = ['$'] ∧ ∃ callee, v.Calls callee ∧
        Sigil.isExplicitWrap (s.text callee.span) = true ∧ callee.span.lo = Text.width front) ∨
      ∃ callee, v.Calls callee ∧ callee.EndsMissing := by
  have hone : Text.width ['$'] = 1 := rfl
  -- nothing that ends behind the sigil ends as a word may
  have hinside {stop : Nat} (hstop : stop = Text.width front + 1) : ¬ Closes s.source stop := by
    obtain ⟨c, rest, hname⟩ := List.exists_cons_of_ne_nil hne
    rw [hstop, ← hone]
    exact hword.not_closes [] hname rfl
  have htriggers := triggers_of_remove hev
  generalize hremove : Event.edit (.remove lo hi) = ev at htriggers
  cases htriggers with
  | mark | unwrap | unpack => cases hremove
  | @wrap leaf e hleaf he =>
    obtain rfl := Event.edit.inj hremove
    cases leaf <;> simp [Leaf.edits] at he
  | @strip id hid =>
    obtain ⟨rfl, rfl⟩ := Edit.remove.inj (Event.edit.inj hremove)
    exact absurd (closes_of_strips hnode hid) (hinside (by omega))
  | @front callee hunwraps =>
    obtain ⟨rfl, rfl⟩ := Edit.remove.inj (Event.edit.inj hremove)
    have hstart : callee.span.lo = Text.width front := by omega
    exact .inl ⟨callee, hunwraps,
      hunwraps.not_isName hword hignored (hunwraps.sited hnode) hstart, hstart⟩
  | @back callee hcall hwrap =>
    obtain ⟨rfl, rfl⟩ := Edit.remove.inj (Event.edit.inj hremove)
    rcases (hcall.sited hnode).closes with hcloses | hmissing
    · exact absurd hcloses (hinside (by omega))
    · exact .inr (.inr ⟨callee, hcall, hmissing⟩)
  | @erase callee hcall hexplicit =>
    obtain ⟨rfl, rfl⟩ := Edit.remove.inj (Event.edit.inj hremove)
    rcases (hcall.sited hnode).closes with hcloses | hmissing
    · obtain ⟨hname, hstart⟩ := name_of_erased hword hne hexplicit hcloses hlo hhi
      exact .inr (.inl ⟨hname, callee, hcall, hexplicit, hstart⟩)
    · exact .inr (.inr ⟨callee, hcall, hmissing⟩)

end Visits

end Walk

namespace Transform

section Scripts

variable {o : Options} {filename : String} {source : List Char}

/-- A declaration of the script takes the sigil at the offset for that of a callee which is more
than a name. -/
def Script.UnwrapsLonger (o : Options) (u : Script filename source) (p : Nat) : Prop :=
  ∃ s place span target init callee, Walk.Visits (Walk.scriptPieces o u.text u.stmts) s
      (.declarator place (.mk span target init)) ∧
    Walk.unwrapCallee? s init = some callee ∧ Walk.takesSigil s target = true ∧
    Walk.isName callee = false ∧ u.region.start + callee.span.lo = p

/-- What the script calls at the offset is written `$$`. -/
def Script.Erases (o : Options) (u : Script filename source) (p : Nat) : Prop :=
  ∃ s v callee, Walk.Visits (Walk.scriptPieces o u.text u.stmts) s v ∧ v.Calls callee ∧
    Sigil.isExplicitWrap (s.text callee.span) = true ∧ u.region.start + callee.span.lo = p

/-- The script takes away what stands at the offset because of a callee that ends with a missing
operand. -/
def Script.TakesForMissing (o : Options) (u : Script filename source) (p : Nat) : Prop :=
  ∃ s v callee lo hi, Walk.Visits (Walk.scriptPieces o u.text u.stmts) s v ∧ v.Calls callee ∧
    callee.EndsMissing ∧ .event (.edit (.remove lo hi)) ∈ v.pieces s ∧
    u.region.start + lo ≤ p ∧ p < u.region.start + hi

/-- Where no operand is missing, nothing is taken away because of one. -/
theorem Script.not_takesForMissing {u : Script filename source}
    (h : ∀ st ∈ u.stmts, Node.Everywhere Node.children (Node.isWhole · = true) (.stmt st))
    (p : Nat) : ¬ u.TakesForMissing o p := by
  rintro ⟨s, v, callee, lo, hi, hv, hcall, hmissing, _⟩
  have hnode := hv.everywhere h
  obtain ⟨chain, settled, span, link, args, rfl⟩ := hcall
  exact hmissing.not_whole (hnode.child (by simp))

theorem Script.withoutMark_eq {u : Script filename source} (h : u.markWidth = 0) :
    Text.withoutMark u.text = u.text := by
  obtain ⟨mark, hmark⟩ := Text.withoutMark_split u.text
  obtain rfl : mark = [] := by
    rw [← Text.width_eq_zero_iff]
    have hwidth := congrArg Text.width hmark
    rw [Text.width_append] at hwidth
    unfold markWidth at h
    omega
  exact hmark.symm

def Script.Takes (o : Options) (u : Script filename source) (p : Nat) : Prop :=
  ∃ s v lo hi, Walk.Visits (Walk.scriptPieces o u.text u.stmts) s v ∧
    .event (.edit (.remove lo hi)) ∈ v.pieces s ∧ u.region.start + lo ≤ p ∧ p < u.region.start + hi

/-- A document loses what its scripts take away. -/
theorem removed_iff {t : Transformed} (h : transformFile o filename source = .ok t) {p : Nat} :
    (∃ lo hi, .remove lo hi ∈ t.edits ∧ lo ≤ p ∧ p < hi) ↔
      ∃ u : Script filename source, u.Takes o p := by
  obtain ⟨horigin, hissued⟩ := edits_of_transformFile h
  constructor
  · rintro ⟨lo, hi, hremove, hlo, hhi⟩
    rcases horigin _ hremove with ⟨u, session, hedit⟩ | ⟨stop, heq⟩
    · obtain ⟨start, stop, hev, _, rfl, rfl⟩ := Walk.script_remove_iff.mp hedit
      obtain ⟨s, v, hv, hev⟩ := (Walk.mem_traceStmts_iff rfl).mp hev
      exact ⟨u, s, v, start, stop, hv, hev, hlo, hhi⟩
    · cases heq
  · rintro ⟨u, s, v, lo, hi, hv, hev, hlo, hhi⟩
    obtain ⟨session, hmem⟩ := hissued u
    refine ⟨_, _, hmem _ (Walk.script_remove_iff.mpr ⟨lo, hi, ?_, by omega, rfl, rfl⟩), hlo, hhi⟩
    exact (Walk.mem_traceStmts_iff rfl).mpr ⟨s, v, hv, hev⟩

/-- The offsets of what a script takes away are offsets of its text. -/
theorem Script.Takes.within {u : Script filename source} {p : Nat} (h : u.Takes o p) :
    u.region.start ≤ p ∧ p < u.region.start + Text.width u.text := by
  obtain ⟨s, v, lo, hi, hv, hev, hlo, hhi⟩ := h
  have htrace := (Walk.mem_traceStmts_iff rfl).mpr ⟨s, v, hv, hev⟩
  have hcut := Walk.parseModule_events_within u.parsed _ htrace
  have hstop : hi ≤ Text.width u.text :=
    (hcut.ranges ⟨lo, hi⟩ (by simp [Walk.Event.ranges, Edit.ranges])).2
  omega

/-- A script takes away the sigil of an ignored name in these cases. -/
theorem Script.takes_iff {u : Script filename source} (hmark : u.markWidth = 0)
    {front name back : List Char} (hword : SigilWord source front name back)
    (hignored : String.ofList name ∈ o.ignoreList) :
    u.Takes o (Text.width front) ↔
      u.UnwrapsLonger o (Text.width front) ∨
        name = ['$'] ∧ u.Erases o (Text.width front) ∨ u.TakesForMissing o (Text.width front) := by
  constructor
  · -- the word stands in the text of the script, as it does in the document
    intro htakes
    obtain ⟨hlow, hhigh⟩ := htakes.within
    obtain ⟨s, v, lo, hi, hv, hev, hlo, hhi⟩ := htakes
    obtain ⟨before, behind, hsource, hstart, hbehind⟩ := u.placed
    rw [hsource] at hword
    rw [← hstart] at hlow hhigh
    obtain ⟨inner, rest, hinner, hwidth⟩ := hword.of_part hbehind hlow hhigh
    obtain ⟨_, hnode⟩ := hv.sited (parseModule_sited u.parsed)
    rw [u.withoutMark_eq hmark] at hnode
    obtain ⟨b, rfl⟩ := hv.setting_eq
    rw [hwidth, hstart] at hlo hhi ⊢
    rcases Walk.takes_ignored hinner hignored (Options.ne_nil_of_ignored hignored) hnode hev
      (by omega) (by omega) with hlonger | ⟨hname, callee, hcall, hexplicit, hcallee⟩ |
        ⟨callee, hcall, hmissing⟩
    · obtain ⟨callee, hunwraps, hname, hcallee⟩ := hlonger
      cases hunwraps with
      | call hcalled => exact absurd (hname.symm.trans hcalled) (by decide)
      | declared hdeclared htakes =>
        exact .inl ⟨_, _, _, _, _, callee, hv, hdeclared, htakes, hname, by rw [hcallee]⟩
    · exact .inr (.inl ⟨hname, _, _, callee, hv, hcall, hexplicit, by rw [hcallee]⟩)
    · exact .inr (.inr ⟨_, _, callee, lo, hi, hv, hcall, hmissing, hev, hlo, hhi⟩)
  · rintro (⟨s, place, span, target, init, callee, hv, hcallee, htakes, _, hp⟩ |
      ⟨_, s, v, callee, hv, hcall, hexplicit, hp⟩ | ⟨s, v, _, lo, hi, hv, _, _, hev, hlo, hhi⟩)
    · exact ⟨s, _, _, _, hv, Walk.front_mem_pieces hcallee htakes, by omega, by omega⟩
    · have hsize := @Walk.text_size s callee.span (by rw [eq_of_beq hexplicit]; decide)
      have htwo : (s.text callee.span).utf8ByteSize = 2 := by
        rw [eq_of_beq hexplicit]
        rfl
      exact ⟨s, v, _, _, hv, Walk.erase_mem_pieces hcall hexplicit, by omega, by omega⟩
    · exact ⟨s, v, lo, hi, hv, hev, hlo, hhi⟩

end Scripts

section Documents

variable {o : Options} {filename : String} {source : List Char} {t : Transformed}

/-- In a document that is transformed, without byte order marks in front of its scripts, a sigil and
an ignored name that stand as a word lose the sigil in these cases only: a declaration unwraps a
longer callee that starts with the word; the word is `$$`, which is called; or a callee that ends
with a missing operand takes the sigil for its own. -/
theorem transformFile_takes_ignored_iff (h : transformFile o filename source = .ok t)
    (hmark : ∀ u : Script filename source, u.markWidth = 0) {front name back : List Char}
    (hword : SigilWord source front name back) (hignored : String.ofList name ∈ o.ignoreList) :
    (∃ lo hi, .remove lo hi ∈ t.edits ∧ lo ≤ Text.width front ∧ Text.width front < hi) ↔
      ∃ u : Script filename source, u.UnwrapsLonger o (Text.width front) ∨
        name = ['$'] ∧ u.Erases o (Text.width front) ∨ u.TakesForMissing o (Text.width front) := by
  rw [removed_iff h]
  exact exists_congr fun u => u.takes_iff (hmark u) hword hignored

end Documents

/-- A script with an ignored name at the start of a declared callee, and as a callee. -/
def chainedText : List Char :=
  "let a = $defineProps().x(); $defineProps()".toList

/-- The sigil of the longer callee goes, the one of the lone name stays. -/
theorem transformFile_takes_ignored_iff_chained : ∃ t,
    transformFile {} "t.ts" chainedText = .ok t ∧ t.edits = [.remove 8 9] ∧
    (∃ u : Script "t.ts" chainedText, u.UnwrapsLonger {} 8) ∧
    ¬ ∃ u : Script "t.ts" chainedText, u.UnwrapsLonger {} 28 := by
  have hregions : Document.regionsOf? "t.ts" chainedText = some [.whole chainedText .ts] := by
    decide +kernel
  obtain ⟨_, ht⟩ := @transformFile_of_edits {} "t.ts" chainedText _ [.remove 8 9] rfl hregions
    (by decide +kernel)
  have happly : EditSet.apply ⟨[.remove 8 9]⟩ chainedText =
      .ok ⟨"let a = defineProps().x(); $defineProps()".toList, [⟨0, 0, 0⟩, ⟨0, 8, 9⟩]⟩ := by cbv
  have hsorted : EditSet.sorted ⟨[.remove 8 9]⟩ = [.remove 8 9] := by cbv
  simp only [splice, EditSet.isEmpty, List.isEmpty_cons, Bool.false_eq_true, if_false, happly,
    hsorted, Except.map] at ht
  obtain ⟨stmts, hstmts, hcheck⟩ := @exists_parse .ts chainedText
    (fun stmts => stmts.all fun st => Node.check Node.isWhole 9 (.stmt st)) (by decide +kernel)
  have hread := Script.of_whole hregions hstmts
  have hmark (u : Script "t.ts" chainedText) : u.markWidth = 0 := by
    rw [Script.markWidth, (hread u).1]
    decide +kernel
  have hignored : String.ofList "defineProps".toList ∈ Options.ignoreList {} := by decide +kernel
  have hname : "defineProps".toList ≠ ['$'] := by decide +kernel
  have hchars : ("defineProps".toList.all Text.isExtender) = true := by decide +kernel
  have hword {front back : List Char}
      (htext : chainedText = front ++ '$' :: "defineProps".toList ++ back)
      (hstarts : front.getLast?.any Text.isExtender = false)
      (hends : back.head?.any (fun c => Text.isExtender c || c == '\\') = false) :
      SigilWord chainedText front "defineProps".toList back :=
    ⟨htext, hstarts, List.all_eq_true.mp hchars, hends⟩
  refine ⟨_, ht, rfl, ?_, ?_⟩
  · have hfirst := @hword "let a = ".toList "().x(); $defineProps()".toList (by decide +kernel)
      (by decide +kernel) (by decide +kernel)
    have htaken := transformFile_takes_ignored_iff ht hmark hfirst hignored
    rw [show Text.width "let a = ".toList = 8 by decide +kernel] at htaken
    obtain ⟨u, hu⟩ := htaken.mp ⟨8, 9, List.mem_singleton_self _, by decide, by decide⟩
    refine ⟨u, hu.resolve_right ?_⟩
    rintro (⟨hsigil, _⟩ | hmissing)
    · exact hname hsigil
    · refine Script.not_takesForMissing (fun st hst => ?_) 8 hmissing
      rw [(hread u).2] at hst
      exact Node.everywhere_of_check (List.all_eq_true.mp hcheck st hst)
  · have hsecond := @hword "let a = $defineProps().x(); ".toList "()".toList (by decide +kernel)
      (by decide +kernel) (by decide +kernel)
    have htaken := transformFile_takes_ignored_iff ht hmark hsecond hignored
    rw [show Text.width "let a = $defineProps().x(); ".toList = 28 by decide +kernel] at htaken
    rintro ⟨u, hu⟩
    obtain ⟨lo, hi, hremove, _, hhi⟩ := htaken.mpr ⟨u, .inl hu⟩
    obtain ⟨rfl, rfl⟩ := Edit.remove.inj (List.mem_singleton.mp hremove)
    exact absurd hhi (by decide)

end Transform

end RefSugar

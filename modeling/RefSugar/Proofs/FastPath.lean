import RefSugar.Proofs.BoundNames
import RefSugar.Proofs.CodePieces
import RefSugar.Proofs.Parsing
import RefSugar.Proofs.Scoping

/-! Scripts without a sigil, which are skipped. Main statement: walking a script in which the scan
finds no sigil comes to the same as skipping it, if the scan takes for code what the parser reads as
callees and names. For a script written in pieces, that is to say that these stand in the code of the
pieces. -/
namespace RefSugar

open Syntax

namespace Sigil

/-- Outside of comments, strings, templates and regular expressions. -/
def Mode.isCode : Mode → Bool
  | code | word _ | slash | flags => true
  | _ => false

def Mode.Quotes : Mode → Prop
  | string quote | stringEscape quote => quote ≠ '$'
  | _ => True

namespace Scan

theorem code_found {s : Scan} (h : s.found = true) (c : Char) : (s.code c).found = true := by
  grind [code]

/-- A sigil that was found stays found. -/
theorem step_found {s : Scan} (h : s.found = true) (c : Char) : (s.step c).found = true := by
  have hregex {s : Scan} (h : s.found = true) (inClass : Bool) :
      (s.regex inClass c).found = true := by
    grind [regex, code_found]
  have htemplate : (template s c).found = true := by
    grind [template]
  grind [step, code_found]

theorem steps_found {s : Scan} (h : s.found = true) (cs : List Char) :
    (cs.foldl step s).found = true := by
  induction cs generalizing s with
  | nil => exact h
  | cons c cs ih => exact ih (step_found h c)

theorem code_quotes (s : Scan) (c : Char) : (s.code c).mode.Quotes := by
  grind [code, Mode.Quotes]

theorem step_quotes {s : Scan} (h : s.mode.Quotes) (c : Char) : (s.step c).mode.Quotes := by
  have hregex (s : Scan) (inClass : Bool) : (s.regex inClass c).mode.Quotes := by
    grind [regex, code_quotes, Mode.Quotes]
  have htemplate : (s.template c).mode.Quotes := by
    grind [template, Mode.Quotes]
  grind [step, code_quotes, Mode.Quotes]

theorem steps_quotes {s : Scan} (h : s.mode.Quotes) (cs : List Char) :
    (cs.foldl step s).mode.Quotes := by
  induction cs generalizing s with
  | nil => exact h
  | cons c cs ih => exact ih (step_quotes h c)

/-- A sigil is found, or there is code neither in front of it nor behind it. -/
theorem step_sigil {s : Scan} (h : s.mode.Quotes) :
    (s.step '$').found = true ∨ s.mode.isCode = false ∧ (s.step '$').mode.isCode = false := by
  have hword : isWordChar '$' = false := by decide
  obtain ⟨mode, braces, operand, found⟩ := s
  cases mode with
  | code => exact .inl rfl
  | word chars | flags => exact .inl (by simp [step, hword, code])
  | slash => cases operand <;> exact .inl (by simp [step, regex, code])
  | regex inClass => exact .inl (by simp [step, regex, code])
  | string quote =>
    have hquote : '$' ≠ quote := Ne.symm h
    exact .inr ⟨rfl, by simp [step, hquote, Mode.isCode]⟩
  | _ => exact .inr ⟨rfl, rfl⟩

end Scan

/-- Where a text without a sigil of its own shows one, there is code neither in front of it nor
behind it. -/
theorem isCode_of_containsSigil {text front back : List Char} (h : containsSigil text = false)
    (htext : text = front ++ '$' :: back) :
    (front.foldl Scan.step {}).mode.isCode = false ∧
      ((front ++ ['$']).foldl Scan.step {}).mode.isCode = false := by
  rw [List.foldl_append, List.foldl_cons, List.foldl_nil]
  have hquotes : (front.foldl Scan.step {}).mode.Quotes := Scan.steps_quotes (s := {}) trivial front
  refine (Scan.step_sigil hquotes).resolve_left fun hfound => ?_
  have hfound := Scan.steps_found hfound back
  rw [containsSigil, htext, List.foldl_append, List.foldl_cons, hfound] at h
  exact Bool.noConfusion h

def codeAt (text : List Char) (pos : Nat) : Bool :=
  (Text.slice? 0 pos text).any fun front => (front.foldl Scan.step {}).mode.isCode

theorem codeAt_width {front back : List Char} (h : codeAt (front ++ back) (Text.width front) = true) :
    (front.foldl Scan.step {}).mode.isCode = true := by
  have hslice : Text.slice? 0 (Text.width front) (front ++ back) = some front :=
    Text.slice?_eq_some_iff.mpr ⟨[], back, rfl, rfl, by simp⟩
  simpa [codeAt, hslice] using h

def InCode (ps : List Piece) (pos : Nat) : Prop :=
  ∃ front back, renderAll ps = front ++ back ∧ CodeFront ps front ∧ Text.width front = pos

/-- The scan is in code at every offset in the code of pieces. -/
theorem codeAt_of_inCode {ps : List Piece} {pos : Nat} (h : InCode ps pos) :
    codeAt (renderAll ps) pos = true := by
  obtain ⟨front, back, htext, hfront, rfl⟩ := h
  have hslice : Text.slice? 0 (Text.width front) (renderAll ps) = some front :=
    Text.slice?_eq_some_iff.mpr ⟨[], back, htext, rfl, by simp⟩
  have hsettled := hfront.settled {} rfl
  rw [codeAt, hslice, Option.any_some]
  generalize (front.foldl Scan.step {}).mode = mode at hsettled ⊢
  cases mode with
  | code | word => rfl
  | _ => cases hsettled

end Sigil

namespace Walk

/-- No sigil stands where it would trigger something: at an end of a callee, or at the end of a name
that may have one. -/
def Unmarked (s : Setting) : Node → Prop
  | .expr (.call _ _ callee _) =>
    (s.text callee.span).toList.head? ≠ some '$' ∧
      Sigil.endsWithSigil (s.text callee.span) = false
  | .pattern (.name id) | .stmt (.function _ id _) | .attr (.named (.plain id) _ _) =>
    Sigil.endsWithSigil id.name = false
  | _ => True

section Triggers

variable {s : Setting}

theorem callEvents_eq_nil {span : Span} {link : Link} {callee : Expr} {args : List Item}
    (h : Unmarked s (.expr (.call span link callee args))) (settled : Bool) :
    callEvents s settled callee args = [] := by
  have hexplicit : Sigil.isExplicitWrap (s.text callee.span) = false := by
    rw [Sigil.isExplicitWrap, beq_eq_false_iff_ne]
    intro htext
    exact h.1 (by rw [htext]; rfl)
  have hunwrap : Sigil.isUnwrapCall s.ignore (s.text callee.span) = false :=
    Bool.eq_false_iff.mpr fun hunwrap => h.1 (head_of_isUnwrapCall hunwrap)
  simp [callEvents, hexplicit, hunwrap, Sigil.isAutoWrapCall, h.2]

theorem not_isSigilName {name : String} (h : Sigil.endsWithSigil name = false) :
    Sigil.isSigilName name = false := by
  simp [Sigil.isSigilName, h]

/-- The call that a declared value boils down to stands in the value. -/
theorem reaches_declared (e : Expr) {callee : Expr} (h : declaredCallee? e = some callee) :
    ∃ span args, Node.Reaches Node.children (.expr e) (.expr (.call span .plain callee args)) := by
  induction Lexical.declaredCallee?_eq_some_iff.mp h with
  | call => exact ⟨_, _, .refl _⟩
  | parens _ ih | nonNull _ ih =>
    obtain ⟨span, args, hreach⟩ := ih h
    exact ⟨span, args, .step (by simp) hreach⟩

theorem unwrapCallee?_eq_none {init : Option Expr}
    (h : ∀ e ∈ init, Node.Everywhere Node.children (Unmarked s) (.expr e)) :
    unwrapCallee? s init = none := by
  rw [unwrapCallee?, Option.filter_eq_none_iff]
  intro callee hcallee hunwrap
  obtain ⟨e, rfl, hdeclared⟩ := Option.bind_eq_some_iff.mp hcallee
  obtain ⟨span, args, hreach⟩ := reaches_declared e hdeclared
  exact ((h e rfl).of_reaches hreach).1 (head_of_isUnwrapCall hunwrap)

/-- A declaration without sigils gives rise to nothing. -/
theorem declaratorEvents_eq_nil {place : Place} {d : Declarator}
    (h : Node.Everywhere Node.children (Unmarked s) (.declarator d)) :
    declaratorEvents s place d = [] := by
  obtain ⟨span, target, init⟩ := d
  have hnone : unwrapCallee? s init = none :=
    unwrapCallee?_eq_none fun e he => h.child (by simp_all)
  rw [declaratorEvents, hnone]
  rcases functionValueEvents_cases (s := s) target init with hvalue | ⟨id, e, rfl, _, hsigil, _⟩
  · exact hvalue
  · have hname : Unmarked s (.pattern (.name id)) := (h.child (by simp)).here
    rw [not_isSigilName hname] at hsigil
    cases hsigil

/-- Where no sigil stands, none triggers anything. -/
theorem triggered_eq_nil {v : Visit} (h : Node.Everywhere Node.children (Unmarked s) v.node) :
    v.triggered s = [] := by
  unfold Visit.triggered
  split
  · exact callEvents_eq_nil h.here _
  · exact declaratorEvents_eq_nil h
  · rename_i name braced value
    cases name with
    | plain id =>
      have hname : Sigil.endsWithSigil id.name = false := h.here
      simp [attrEvents, Sigil.isSigilAttribute, not_isSigilName hname]
    | qualified span space => rfl
  · rename_i span name decorators params body
    have hname : Sigil.endsWithSigil name.name = false := h.here
    simp [functionNameEvents, not_isSigilName hname]
  · rfl

end Triggers

/-- Events that keep what a run has come to: scopes, ordinary declarations and mentions. -/
def Event.isOrdinary : Event → Bool
  | enter _ | leave | known _ _ | mention _ => true
  | edit _ | mark _ | unwrap _ _ | unpack _ _ _ => false

/-- A tree without sigils makes ordinary events only. -/
theorem ordinary_of_unmarked {s : Setting} {v : Visit}
    (h : Node.Everywhere Node.children (Unmarked s) v.node) :
    ∀ ev ∈ v.trace s, ev.isOrdinary = true := by
  intro ev hev
  rcases v.mem_trace s ev hev with ⟨kind, rfl⟩ | rfl | ⟨b, v', hreach, hpiece⟩
  · rfl
  · rfl
  · have htriggered : v'.triggered { s with isExempt := b } = [] :=
      triggered_eq_nil (h.reached hreach)
    rcases piece_event hpiece with ⟨m, rfl, _⟩ | ⟨place, name, rfl⟩ | hev
    · rfl
    · rfl
    · rw [htriggered] at hev
      cases hev

/-- A run that has come upon no sigil: it has nothing to show for it. -/
structure Run.Untouched (base : Nat) (session : Session) (r : Run) : Prop where
  emitter : r.emitter = { base }
  session : r.session = session
  unwrapped : r.unwrapped = []
  called : r.called = []
  frames : ∀ f ∈ r.scopes.frames, f.unwrap = []
  counts : r.scopes.unwrapCount = {}
  references : ∀ ref ∈ r.references, ref.wasActive = false

section Runs

variable {base : Nat} {session : Session} {r : Run}

/-- Ordinary events leave a run without anything to show. -/
theorem Run.Untouched.step (h : r.Untouched base session) (source : List Char) {ev : Event}
    (hordinary : ev.isOrdinary = true) : (r.step source ev).Untouched base session := by
  obtain ⟨hemitter, hsession, hunwrapped, hcalled, hframes, hcounts, hreferences⟩ := h
  cases ev with
  | enter kind =>
    refine ⟨hemitter, hsession, hunwrapped, hcalled, ?_, hcounts, hreferences⟩
    intro f hf
    rcases List.mem_append.mp hf with hf | hf
    · exact hframes f hf
    · rw [List.mem_singleton.mp hf]
  | leave =>
    have hcount : r.scopes.leave.unwrapCount = {} := by
      unfold Scopes.leave
      repeat' split
      all_goals try exact hcounts
      rename_i id rest hstack f hf hkind
      simpa [hframes f (List.mem_of_getElem? hf)] using hcounts
    refine ⟨hemitter, hsession, hunwrapped, hcalled, ?_, hcount, hreferences⟩
    intro f hf
    exact hframes f (r.scopes.leave_frames ▸ hf)
  | known place name =>
    suffices hscopes : (∀ f ∈ (r.scopes.declareKnown (place.frame r.scopes) name).frames,
        f.unwrap = []) ∧ (r.scopes.declareKnown (place.frame r.scopes) name).unwrapCount = {} from
      ⟨hemitter, hsession, hunwrapped, hcalled, hscopes.1, hscopes.2, hreferences⟩
    unfold Scopes.declareKnown
    split
    · exact ⟨hframes, hcounts⟩
    · rename_i f hf
      split
      · exact ⟨hframes, hcounts⟩
      · refine ⟨?_, hcounts⟩
        intro g hg
        rcases List.mem_or_eq_of_mem_set hg with hg | rfl
        · exact hframes g hg
        · exact hframes f (List.mem_of_getElem? hf)
  | mention m =>
    refine ⟨hemitter, hsession, hunwrapped, hcalled, hframes, hcounts, ?_⟩
    intro ref href
    rcases List.mem_append.mp href with href | href
    · exact hreferences ref href
    · rw [List.mem_singleton.mp href]
      simp [Scopes.isActiveUnwrap, hcounts, Tally.get]
  | edit _ | mark _ | unwrap _ _ | unpack _ _ _ => cases hordinary

theorem Run.Untouched.steps (h : r.Untouched base session) (source : List Char)
    {events : List Event} (hordinary : ∀ ev ∈ events, ev.isOrdinary = true) :
    (r.steps source events).Untouched base session := by
  induction events generalizing r with
  | nil => exact h
  | cons ev events ih =>
    exact ih (h.step source (hordinary ev (by simp)))
      fun other hother => hordinary other (by simp [hother])

/-- No frame has anything to unwrap, so that no name is resolved to that. -/
theorem resolveUpTo_ne_unwrap {scopes : Scopes} (h : ∀ f ∈ scopes.frames, f.unwrap = [])
    (name : String) (fuel : Nat) (id? : Option Nat) :
    scopes.resolveUpTo name fuel id? ≠ some .unwrap := by
  fun_induction Scopes.resolveUpTo scopes name fuel id? with
  | case1 => simp
  | case2 => simp
  | case3 => simp
  | case4 fuel id f hf kind hkind =>
    intro hsome
    rw [← hkind] at hsome
    simp [Frame.lookup, h f (List.mem_of_getElem? hf)] at hsome
  | case5 fuel id f hf hnone ih => exact ih

/-- A run that has come upon no sigil comes to nothing. -/
theorem Run.Untouched.finish (h : r.Untouched base session) (o : Options) :
    r.finish o = { edits := {}, rootUnwraps := [], session } := by
  obtain ⟨hemitter, hsession, hunwrapped, hcalled, hframes, hcounts, hreferences⟩ := h
  have hinactive : ∀ ref ∈ r.references, ref.isActive r.scopes.leave o.resolution = false := by
    intro ref href
    unfold Reference.isActive
    split
    · rw [Scopes.resolve_leave, beq_eq_false_iff_ne]
      exact resolveUpTo_ne_unwrap hframes ref.name _ _
    · exact hreferences ref href
  have hresolved : Reference.resolveAll r.scopes.leave r.marked o.resolution r.references r.emitter =
      r.emitter := by
    have hedits : (r.references.flatMap fun ref =>
        ref.editsFor (ref.classify r.scopes.leave r.marked o.resolution)) = [] := by
      rw [List.flatMap_eq_nil_iff]
      intro ref href
      simp [Reference.classify, hinactive ref href, Reference.editsFor]
    rw [Reference.resolveAll, ← List.foldl_flatMap, hedits, List.foldl_nil]
  have himport : session.importStatement [] o.runtimeModule = (none, session) := by
    simp [Session.importStatement]
  unfold Run.finish
  rw [hresolved]
  simp only [hunwrapped, hcalled, hsession, himport, hemitter]
  split <;> rfl

end Runs

/-- The scan is in code where the parser finds what may hold a sigil: at both ends of a callee, and at
the end of a name, which is written without an escape. -/
def isScanned (text : List Char) : Node → Bool
  | .expr (.call _ _ callee _) =>
    Sigil.codeAt text callee.span.lo && Sigil.codeAt text callee.span.hi
  | .pattern (.name id) | .stmt (.function _ id _) | .attr (.named (.plain id) _ _) =>
    Sigil.codeAt text id.span.hi && !(textUnder text id.span).contains '\\'
  | _ => true

section Scanned

variable {text : List Char} (hnone : Sigil.containsSigil text = false)
include hnone

theorem text_head_ne {s : Setting} (hsource : s.source = text) {span : Span}
    (hcode : Sigil.codeAt text span.lo = true) : (s.text span).toList.head? ≠ some '$' := by
  intro hhead
  obtain ⟨rest, hrest⟩ := List.head?_eq_some_iff.mp hhead
  obtain ⟨front, back, htext, hlo, _⟩ := text_split (by simp [hrest] : (s.text span).toList ≠ [])
  rw [hsource, hrest, List.append_assoc, List.cons_append] at htext
  rw [← hlo, htext] at hcode
  have hhidden := (Sigil.isCode_of_containsSigil hnone htext).1
  rw [Sigil.codeAt_width hcode] at hhidden
  cases hhidden

/-- A text behind which there is code does not end with a sigil. -/
theorem not_sigil_at_end {front back : List Char} {pos : Nat} (hcode : Sigil.codeAt text pos = true)
    (htext : text = front ++ '$' :: back) : Text.width front + 1 ≠ pos := by
  rintro rfl
  have hsplit : text = (front ++ ['$']) ++ back := by simpa using htext
  have hwidth : Text.width (front ++ ['$']) = Text.width front + 1 := by
    rw [Text.width_append]
    rfl
  have hhidden := (Sigil.isCode_of_containsSigil hnone htext).2
  rw [← hwidth, hsplit] at hcode
  rw [Sigil.codeAt_width hcode] at hhidden
  cases hhidden

/-- If the scan finds no sigil, none ends where it is in code. -/
theorem text_not_endsWithSigil {s : Setting} (hsource : s.source = text) {span : Span}
    (hcode : Sigil.codeAt text span.hi = true) : Sigil.endsWithSigil (s.text span) = false := by
  rw [Sigil.endsWithSigil, beq_eq_false_iff_ne]
  intro hlast
  obtain ⟨init, hinit⟩ := List.getLast?_eq_some_iff.mp hlast
  obtain ⟨front, back, htext, _, hhi⟩ := text_split (by simp [hinit] : (s.text span).toList ≠ [])
  rw [hsource, hinit] at htext
  rw [hinit, Text.width_append] at hhi
  have htext : text = (front ++ init) ++ '$' :: back := by simpa using htext
  refine not_sigil_at_end hnone hcode htext ?_
  rw [Text.width_append, ← hhi, Nat.add_assoc]
  rfl

/-- A name that is written without an escape ends with the character that stands at its end. -/
theorem name_not_endsWithSigil {id : Ident} (hstands : Stands text id)
    (hcode : Sigil.codeAt text id.span.hi = true) (hplain : '\\' ∉ textUnder text id.span) :
    Sigil.endsWithSigil id.name = false := by
  rw [Sigil.endsWithSigil, beq_eq_false_iff_ne]
  intro hlast
  obtain ⟨hlo, front, raw, back, htext, hle, hhi, hwrites⟩ := hstands
  obtain ⟨a, b, hab, ha⟩ := Text.isBoundary_iff.mp hlo
  -- what is written of the name stands under its span
  obtain ⟨gap, rfl, _⟩ : ∃ gap, front = a ++ gap ∧ b = gap ++ (raw ++ back) :=
    Text.append_split_of_width_le (hab.symm.trans (htext.trans (List.append_assoc ..)))
      (ha.symm ▸ hle.le)
  have hunder : textUnder text id.span = gap ++ raw := by
    have hslice : Text.slice? id.span.lo id.span.hi text = some (gap ++ raw) := by
      refine Text.slice?_eq_some_iff.mpr ⟨a, back, by simpa using htext, ha, ?_⟩
      rw [← hhi]
      simp only [Text.width_append]
      omega
    rw [textUnder, hslice]
    rfl
  have hraw : id.name.toList = raw := hwrites.plain fun hmem => hplain (by simp [hunder, hmem])
  rw [hraw] at hlast
  obtain ⟨init, rfl⟩ := List.getLast?_eq_some_iff.mp hlast
  have htext : text = (a ++ gap ++ init) ++ '$' :: back := by simpa using htext
  refine not_sigil_at_end hnone hcode htext ?_
  rw [← hhi]
  simp only [Text.width_append]
  rfl

/-- What the scan takes for code has no sigil that it does not find. -/
theorem unmarked_of_scanned (o : Options) {n : Node} (hsited : Sited text n)
    (hscanned : Node.Everywhere Node.children (isScanned text · = true) n) :
    Node.Everywhere Node.children (Unmarked (setting o text)) n := by
  have hname {id : Ident} (hstands : Stands text id)
      (hscan : (Sigil.codeAt text id.span.hi && !(textUnder text id.span).contains '\\') = true) :
      Sigil.endsWithSigil id.name = false := by
    rw [Bool.and_eq_true] at hscan
    exact name_not_endsWithSigil hnone hstands hscan.1 (by simpa using hscan.2)
  refine Node.everywhere_of_reaches (fun _ _ => Node.sizeOf_lt_of_mem_children) n fun m hm => ?_
  have hwritten := hsited.of_reaches hm
  have hscan := hscanned.of_reaches hm
  unfold Unmarked
  split
  · rw [isScanned, Bool.and_eq_true] at hscan
    exact ⟨text_head_ne hnone rfl hscan.1, text_not_endsWithSigil hnone rfl hscan.2⟩
  · exact hname hwritten.stands hscan
  · exact hname hwritten.stands hscan
  · exact hname hwritten.1 hscan
  · trivial

end Scanned

/-- A walk over a script without a trigger edits nothing, unwraps nothing and leaves the session as it
is. -/
theorem script_of_unmarked (o : Options) (session : Session) (base : Nat) {text : List Char}
    {stmts : List Stmt}
    (h : ∀ st ∈ stmts, Node.Everywhere Node.children (Unmarked (setting o text)) (.stmt st)) :
    script o session base text stmts = { edits := {}, rootUnwraps := [], session } := by
  have hstart : (Run.start base .program session).Untouched base session := by
    constructor <;> simp [Run.start, Scopes.root, Scopes.enter]
  refine Run.Untouched.finish (hstart.steps text ?_) o
  intro ev hev
  rw [traceStmts_eq] at hev
  obtain ⟨st, hst, hev⟩ := List.mem_flatMap.mp hev
  exact ordinary_of_unmarked (v := .stmt st) (h st hst) ev hev

/-- If the scan finds no sigil in a script, and is in code wherever the parser finds what may hold one,
then a walk over the script edits nothing, unwraps nothing and leaves the session as it is: it comes to
the same as skipping the script. -/
theorem script_without_sigil (o : Options) (session : Session) (base : Nat) {dialect : Dialect}
    {text : List Char} {stmts : List Stmt} (hparse : parseModule dialect text = .ok stmts)
    (hmark : Text.withoutMark text = text)
    (hscanned : ∀ st ∈ stmts, Node.Everywhere Node.children (isScanned text · = true) (.stmt st))
    (hnone : Sigil.containsSigil text = false) :
    script o session base text stmts = { edits := {}, rootUnwraps := [], session } := by
  refine script_of_unmarked o session base fun st hst => ?_
  have hsited : SitedStmt text st := hmark ▸ parseModule_sited hparse st hst
  exact unmarked_of_scanned hnone o hsited (hscanned st hst)

/-- A script whose sigils stand in a string, in the fixed text of a template and in comments. -/
def hiddenText : List Char :=
  "f('$a()', \x60$b$\x7bc\x7d\x60) // $d()\nconst g = (x) => h(/* let y$ */ x)".toList

theorem script_without_sigil_hidden :
    '$' ∈ hiddenText ∧ ∃ stmts, parseModule .ts hiddenText = .ok stmts ∧
      script {} {} 0 hiddenText stmts = { edits := {}, rootUnwraps := [], session := {} } := by
  obtain ⟨stmts, hstmts, hcheck⟩ := @exists_parse .ts hiddenText
    (fun stmts => stmts.all fun st => Node.check (isScanned hiddenText) 8 (.stmt st))
    (by decide +kernel)
  refine ⟨by decide +kernel, stmts, hstmts, ?_⟩
  refine script_without_sigil {} {} 0 hstmts (by decide +kernel) ?_ (by decide +kernel)
  exact fun st hst => Node.everywhere_of_check (List.all_eq_true.mp hcheck st hst)

/-- What may hold a sigil stands in the code of the pieces: both ends of a callee, and the end of a
name, which is written without an escape. -/
def StandsInCode (ps : List Sigil.Piece) : Node → Prop
  | .expr (.call _ _ callee _) => Sigil.InCode ps callee.span.lo ∧ Sigil.InCode ps callee.span.hi
  | .pattern (.name id) | .stmt (.function _ id _) | .attr (.named (.plain id) _ _) =>
    Sigil.InCode ps id.span.hi ∧ '\\' ∉ textUnder (Sigil.renderAll ps) id.span
  | _ => True

/-- What stands in the code of the pieces is scanned as code. -/
theorem isScanned_of_standsInCode {ps : List Sigil.Piece} {n : Node} (h : StandsInCode ps n) :
    isScanned (Sigil.renderAll ps) n = true := by
  unfold isScanned
  split
  · simp [Sigil.codeAt_of_inCode h.1, Sigil.codeAt_of_inCode h.2]
  iterate 3 · simp [Sigil.codeAt_of_inCode h.1, h.2]
  · rfl

/-- A script of pieces whose plain pieces have no sigil, and whose code holds what the parser finds as
callees and names, is left alone, whatever its strings, comments and templates hold. -/
theorem script_of_pieces (o : Options) (session : Session) (base : Nat) {dialect : Dialect}
    {ps : List Sigil.Piece} {stmts : List Stmt}
    (hparse : parseModule dialect (Sigil.renderAll ps) = .ok stmts)
    (hmark : Text.withoutMark (Sigil.renderAll ps) = Sigil.renderAll ps)
    (hcode : ∀ st ∈ stmts, Node.Everywhere Node.children (StandsInCode ps) (.stmt st))
    (hplain : ∀ chars ∈ Sigil.plainsOf ps, '$' ∉ chars) :
    script o session base (Sigil.renderAll ps) stmts =
      { edits := {}, rootUnwraps := [], session } := by
  have hnone : Sigil.containsSigil (Sigil.renderAll ps) = false := by
    obtain ⟨-, -, hfound⟩ := Sigil.passes_pieces ps {} rfl
    rw [Sigil.containsSigil, hfound, Bool.false_or]
    simpa using hplain
  refine script_of_unmarked o session base fun st hst => ?_
  have hsited := parseModule_sited hparse st hst
  rw [hmark] at hsited
  refine unmarked_of_scanned hnone o hsited (Node.everywhere_of_reaches
    (fun _ _ => Node.sizeOf_lt_of_mem_children) _ fun m hm => ?_)
  exact isScanned_of_standsInCode ((hcode st hst).of_reaches hm)

end Walk

end RefSugar

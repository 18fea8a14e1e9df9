import RefSugar.Proofs.AppendedValues
import RefSugar.Proofs.Components

/-! What a declaration takes away from references around it. Main statement: the body of a getter is
no body that takes `var` declarations, so that such a declaration counts for the whole script around the
getter, and no reference of that name there gets the value. -/
namespace RefSugar

open Syntax Walk

namespace Lexical

section Near

variable (source : List Char) (ignore : List String)

/-- The site is one of the sites or stands in one, with no body in between. -/
inductive Near : List Site → Site → Prop
  | here {qs : List Site} {q : Site} (hq : q ∈ qs) : Near qs q
  | outside {qs : List Site} {q q' : Site} (hq : q ∈ qs) (h : Near (outside source ignore q) q') :
    Near qs q'
  | inside {qs : List Site} {q q' : Site} {A : Area} (hq : q ∈ qs) (hA : inside q = some A)
    (hbody : A.isBody = false) (h : Near A.sites q') : Near qs q'

variable {source ignore} {qs : List Site} {q q' : Site}

theorem Near.to_outside (h : Near source ignore qs q) (hq' : q' ∈ Lexical.outside source ignore q) :
    Near source ignore qs q' := by
  induction h with
  | here hq => exact .outside hq (.here hq')
  | outside hq _ ih => exact .outside hq (ih hq')
  | inside hq hA hbody _ ih => exact .inside hq hA hbody (ih hq')

theorem Near.to_inside {A : Area} (h : Near source ignore qs q) (hA : Lexical.inside q = some A)
    (hbody : A.isBody = false) (hq' : q' ∈ A.sites) : Near source ignore qs q' := by
  induction h with
  | here hq => exact .inside hq hA hbody (.here hq')
  | outside hq _ ih => exact .outside hq (ih hA)
  | inside hq hB hbody' _ ih => exact .inside hq hB hbody' (ih hA)

/-- A hoisted declaration is one of all areas up to the next body. -/
theorem Near.declared {d : Decl} (h : Near source ignore qs q) (hd : Declares source ignore q d)
    (hplace : d.place = .hoisted) : Declared source ignore qs d := by
  induction h with
  | here hq => exact .own hq hd
  | outside hq _ ih => exact .outside hq (ih hd)
  | inside hq hA hbody _ ih => exact .inside hq hA hbody (ih hd) hplace

/-- Where no area declares a name before one that declares it as an ordinary one, it is not to be
unwrapped. -/
theorem not_bindsUnwrap {name : String} {inner outer : List Area} {A : Area}
    (hinner : ∀ B ∈ inner, ∀ kind, ¬ Has source ignore B kind name)
    (hknown : Has source ignore A .known name) :
    ¬ BindsUnwrap source ignore name (inner ++ A :: outer) := by
  induction inner with
  | nil =>
    intro h
    cases h with
    | here _ h => exact h hknown
    | outer h _ => exact h .known hknown
  | cons B inner ih =>
    intro h
    cases h with
    | here h _ => exact hinner B (by simp) .unwrap h
    | outer _ h => exact ih (fun C hC => hinner C (by simp [hC])) h

end Near

/-- A `var` with an ordinary value in the body of a getter takes the value from the references of its
name in the script, where no nearer declaration is found. -/
theorem value_not_mem_of_getter {o : Options} {session : Session} {base : Nat} {source : List Char}
    {stmts : List Stmt} (hlexical : o.resolution = .lexical) (hnested : NestedIn source stmts)
    {span place dspan : Span} {key : Key} {body : List Stmt} {decls : List Declarator}
    {target : Pattern} {init : Option Expr} {id ref : Ident} {areas : List Area}
    (hgetter : Near source o.ignoreList (stmts.map .stmt) (.property (.getter span key body)))
    (hvar : .vars place .hoisted decls ∈ body) (hd : .mk dspan target init ∈ decls)
    (hvalue : ¬ Unwrapped source o.ignoreList (.mk dspan target init)) (hid : Binds target id)
    (href : Mentioned source o.ignoreList (stmts.map .stmt) areas ref) (hname : ref.name = id.name)
    (hareas : ∀ A ∈ areas, ∀ kind, ¬ Has source o.ignoreList A kind ref.name) :
    .insertAfter (base + ref.span.hi) ".value" ∉ (script o session base source stmts).edits.edits := by
  have hstmt : Near source o.ignoreList (stmts.map .stmt) (.stmt (.vars place .hoisted decls)) :=
    hgetter.to_inside rfl rfl (List.mem_map_of_mem hvar)
  have hdecl : Near source o.ignoreList (stmts.map .stmt)
      (.declarator .hoisted (.mk dspan target init)) := hstmt.to_outside (List.mem_map_of_mem hd)
  have hknown : Has source o.ignoreList (scriptArea stmts) .known ref.name :=
    .inr ⟨_, hdecl.declared (.ordinary .hoisted hvalue hid) rfl, rfl, hname.symm, fun _ => rfl⟩
  intro hmem
  exact not_bindsUnwrap hareas hknown
    ((value_of_mentioned o session base source stmts hlexical hnested href).2.mp hmem).1

end Lexical

namespace Transform

/-- A script with a `var` in the body of a getter, and a binding to unwrap of the same name. -/
def getterText : List Char :=
  "let a = $ref(0); const o = \x7b get x() \x7b var a = 1; return a \x7d \x7d; a".toList

def apartText : List Char :=
  "let a = $ref(0); const o = \x7b get x() \x7b var b = 1; return b \x7d \x7d; a".toList

/-- The name of a `var` in the body of a getter decides whether a reference behind the getter, which
the variable has nothing to do with, gets its value. -/
theorem transformFile_getter_var : ∃ t t',
    transformFile {} "t.ts" getterText = .ok t ∧
    t.code = "let a = ref(0); const o = \x7b get x() \x7b var a = 1; return a \x7d \x7d; a".toList ∧
    transformFile {} "t.ts" apartText = .ok t' ∧
    t'.code =
      "let a = ref(0); const o = \x7b get x() \x7b var b = 1; return b \x7d \x7d; a.value".toList := by
  have hregions : Document.regionsOf? "t.ts" getterText = some [.whole getterText .ts] := rfl
  have hregions' : Document.regionsOf? "t.ts" apartText = some [.whole apartText .ts] := rfl
  obtain ⟨_, ht⟩ := @transformFile_of_edits {} "t.ts" getterText _ [.remove 8 9] rfl hregions
    (by decide +kernel)
  obtain ⟨_, ht'⟩ := @transformFile_of_edits {} "t.ts" apartText _
    [.remove 8 9, .insertAfter 65 ".value"] rfl hregions' (by decide +kernel)
  have happly : EditSet.apply ⟨[.remove 8 9]⟩ getterText =
      .ok ⟨"let a = ref(0); const o = \x7b get x() \x7b var a = 1; return a \x7d \x7d; a".toList,
        [⟨0, 0, 0⟩, ⟨0, 8, 9⟩]⟩ := by cbv
  have happly' : EditSet.apply ⟨[.remove 8 9, .insertAfter 65 ".value"]⟩ apartText =
      .ok ⟨"let a = ref(0); const o = \x7b get x() \x7b var b = 1; return b \x7d \x7d; a.value".toList,
        [⟨0, 0, 0⟩, ⟨0, 8, 9⟩]⟩ := by cbv
  simp only [splice, EditSet.isEmpty, List.isEmpty_cons, Bool.false_eq_true, if_false, happly,
    Except.map] at ht
  simp only [splice, EditSet.isEmpty, List.isEmpty_cons, Bool.false_eq_true, if_false, happly',
    Except.map] at ht'
  exact ⟨_, _, ht, rfl, ht', rfl⟩

end Transform

end RefSugar

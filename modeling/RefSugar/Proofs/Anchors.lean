import RefSugar.Proofs.Collisions
import RefSugar.Proofs.ReadScripts

/-! What the events of a script are about. A sigil that is taken away because of the text of a callee
stands where it is taken away. From the name of a function or an attribute the last byte is taken
away, whichever way the sigil at its end is written. And what a value is appended to is a whole
word. -/
namespace RefSugar

open Syntax

variable {hi lo : Nat} {id : Ident} {span : Span}

/-- Nothing but sigils stands between the offsets. -/
def OnlySigils (text : List Char) (lo hi : Nat) : Prop :=
  ∃ between, Text.slice? lo hi text = some between ∧ ∀ c ∈ between, c = '$'

theorem OnlySigils.of_split {a between b : List Char} (h : ∀ c ∈ between, c = '$') :
    OnlySigils (a ++ between ++ b) (Text.width a) (Text.width a + Text.width between) :=
  ⟨between, Text.slice?_eq_some_iff.mpr ⟨a, b, rfl, rfl, rfl⟩, h⟩

theorem OnlySigils.within {text : List Char} (h : OnlySigils text lo hi) (front back : List Char) :
    OnlySigils (front ++ text ++ back) (Text.width front + lo) (Text.width front + hi) := by
  obtain ⟨between, hslice, hall⟩ := h
  obtain ⟨a, b, rfl, rfl, rfl⟩ := Text.slice?_eq_some_iff.mp hslice
  have h := @OnlySigils.of_split (front ++ a) between (b ++ back) hall
  rw [Text.width_append, Nat.add_assoc] at h
  simpa using h

/-- The last byte of what is written holds nothing but sigils if it is one. -/
theorem onlySigils_last_iff {front init back : List Char} {c : Char} (hc : c.utf8Size = 1) :
    OnlySigils (front ++ (init ++ [c]) ++ back) (Text.width front + Text.width (init ++ [c]) - 1)
      (Text.width front + Text.width (init ++ [c])) ↔ c = '$' := by
  have hslice : Text.slice? (Text.width front + Text.width (init ++ [c]) - 1)
      (Text.width front + Text.width (init ++ [c])) (front ++ (init ++ [c]) ++ back) = some [c] := by
    refine Text.slice?_eq_some_iff.mpr ⟨front ++ init, back, by simp, ?_, ?_⟩
    · simp only [Text.width_append, Text.width_cons, Text.width_nil, hc]
      omega
    · simp only [Text.width_append]
      omega
  rw [OnlySigils, hslice]
  simp

namespace Edit

/-- Only the removal of something is issued as a removal. -/
theorem remove_mem_issued {e : Edit} :
    .remove lo hi ∈ e.issued ↔ e = .remove lo hi ∧ lo < hi := by
  constructor
  · intro h
    rcases mem_issued h with ⟨rfl, hfilled⟩ | ⟨_, _, _, _, _, heq⟩
    · exact ⟨rfl, by simpa [isFilled] using hfilled⟩
    · cases heq
  · rintro ⟨rfl, hlt⟩
    rw [issued_of_isFilled (by simpa [isFilled] using hlt)]
    exact List.mem_singleton_self _

/-- A removal that is issued comes from one that is not empty. -/
theorem remove_mem_issuedAt {base : Nat} {edits : List Edit} :
    .remove lo hi ∈ Walk.Run.issuedAt base edits ↔
      ∃ start stop, .remove start stop ∈ edits ∧ start < stop ∧ lo = base + start ∧
        hi = base + stop := by
  simp only [Walk.Run.issuedAt, List.mem_flatMap, remove_mem_issued]
  constructor
  · rintro ⟨e, he, hshift, hlt⟩
    cases e <;> simp [shift] at hshift
    rename_i start stop
    obtain ⟨rfl, rfl⟩ := hshift
    exact ⟨start, stop, he, by omega, rfl, rfl⟩
  · rintro ⟨start, stop, he, hlt, rfl, rfl⟩
    exact ⟨_, he, rfl, by omega⟩

end Edit

namespace Walk

/-- What an event does it does where the text speaks for it: it takes away sigils, or the last byte
of one of the given names; it appends no value by itself; and what it refers to is a whole word. -/
def Event.Anchored (source written : List Char) (names : List Ident) : Event → Prop
  | .edit (.remove lo hi) =>
    OnlySigils source lo hi ∨ ∃ id ∈ names, lo = id.span.hi - 1 ∧ hi = id.span.hi
  | .edit (.insertAfter _ text) => text ≠ ".value"
  | .mention m => Spelled written m.id
  | _ => True

section Visits

variable {s : Setting} {written : List Char} {v : Visit} {ev : Event}

theorem spelled_of_mentioned (h : Sited written v.node) (hid : id ∈ v.mentioned) :
    Spelled written id := by
  unfold Visit.mentioned at hid
  split at hid
  · exact List.mem_singleton.mp hid ▸ h.here
  · rename_i found
    have hname : Sited written (.expr (.name found)) := h.child (by simp)
    exact List.mem_singleton.mp hid ▸ hname.here
  · exact List.mem_singleton.mp hid ▸ h.here
  · exact List.mem_singleton.mp hid ▸ h.here
  · exact List.mem_singleton.mp hid ▸ h.here
  · cases hid

/-- A name that loses its last byte stands in the text, with a sigil at its end. -/
theorem stands_of_strips (h : Sited written v.node) (hid : id ∈ v.strips) :
    Stands written id ∧ Sigil.endsWithSigil id.name = true := by
  rcases strips_cases hid with ⟨span, fn, rfl, hsigil⟩ | ⟨place, span, init, rfl, hsigil, _⟩ |
    ⟨value, rfl, hsigil⟩
  · exact ⟨Spelled.stands h.here, endsWithSigil_of_isSigilName hsigil⟩
  · have hname : Sited written (.pattern (.name id)) := h.child (by simp)
    exact ⟨Spelled.stands hname.here, endsWithSigil_of_isSigilName hsigil⟩
  · simp only [Sigil.isSigilAttribute, Bool.and_eq_true] at hsigil
    exact ⟨h.here.1, endsWithSigil_of_isSigilName hsigil.1⟩

/-- The text of a callee speaks for the sigil in front of it. -/
theorem onlySigils_of_front (h : (s.text span).toList.head? = some '$') :
    OnlySigils s.source span.lo (span.lo + 1) := by
  obtain ⟨rest, hrest⟩ := List.head?_eq_some_iff.mp h
  obtain ⟨a, b, hsource, hlo, _⟩ := text_split (by simp [hrest] : (s.text span).toList ≠ [])
  have hdollar : Text.width ['$'] = 1 := rfl
  have hone := @OnlySigils.of_split a ['$'] (rest ++ b) (by simp)
  rw [hdollar] at hone
  rw [hrest] at hsource
  rw [hsource, ← hlo]
  simpa using hone

theorem onlySigils_of_back (h : (s.text span).toList.getLast? = some '$') :
    OnlySigils s.source (span.hi - 1) span.hi := by
  obtain ⟨front, hfront⟩ := List.getLast?_eq_some_iff.mp h
  obtain ⟨a, b, hsource, _, hhi⟩ := text_split (by simp [hfront] : (s.text span).toList ≠ [])
  have hdollar : Text.width ['$'] = 1 := rfl
  have hone := @OnlySigils.of_split (a ++ front) ['$'] b (by simp)
  rw [hfront] at hsource hhi
  rw [Text.width_append, hdollar] at hone hhi
  rw [hsource, ← hhi]
  simpa [Nat.add_assoc] using hone

theorem onlySigils_of_explicit (h : Sigil.isExplicitWrap (s.text span) = true) :
    OnlySigils s.source span.lo span.hi := by
  have htext : (s.text span).toList = ['$', '$'] := by
    rw [eq_of_beq h]
    rfl
  obtain ⟨a, b, hsource, hlo, hhi⟩ := text_split (by simp [htext] : (s.text span).toList ≠ [])
  rw [htext] at hsource hhi
  rw [hsource, ← hhi, ← hlo]
  exact .of_split (by simp)

/-- What a sigil gives rise to is anchored at that sigil. -/
theorem triggers_anchored (h : v.Triggers s ev) : ev.Anchored s.source written v.strips := by
  cases h with
  | mark span | unwrap place name | unpack hv hplan => trivial
  | @wrap leaf e hleaf he =>
    cases leaf with
    | whole span | shorthand id =>
      rcases (by simpa [Leaf.edits] using he : _ ∨ _) with rfl | rfl <;> simp [Event.Anchored]
  | @strip id hid => exact .inr ⟨id, hid, rfl, rfl⟩
  | front hunwraps =>
    exact .inl (onlySigils_of_front (head_of_isUnwrapCall hunwraps.isUnwrapCall))
  | back _ hwrap => exact .inl (onlySigils_of_back (getLast_of_isAutoWrapCall hwrap))
  | erase _ hexplicit => exact .inl (onlySigils_of_explicit hexplicit)

/-- What a visit does by itself it does where the text speaks for it. -/
theorem visit_anchored (h : Sited written v.node) (hev : .event ev ∈ v.pieces s) :
    ev.Anchored s.source written v.strips := by
  rcases piece_event hev with ⟨m, rfl, hid⟩ | ⟨place, name, rfl⟩ | hev
  · exact spelled_of_mentioned h hid
  · trivial
  · exact triggers_anchored (triggers_of_mem hev)

/-- A name that is to lose its last byte loses it. -/
theorem strip_mem_pieces (h : id ∈ v.strips) :
    .event (stripTrailing id.span) ∈ v.pieces s := by
  refine List.mem_append_left _ ?_
  rcases strips_cases h with ⟨span, fn, rfl, hsigil⟩ | ⟨place, span, init, rfl, hsigil, hvalue⟩ |
    ⟨value, rfl, hsigil⟩
  · obtain ⟨decorators, params, body⟩ := fn
    simp [Visit.outer, stmtOuter, functionNameEvents, hsigil]
  · have hcallee : unwrapCallee? s (some init) = none := by
      cases init <;> simp [isFunctionValue, unwrapCallee?, declaredCallee?] at hvalue ⊢
    have hevents : stripTrailing id.span ∈ functionValueEvents s (.name id) (some init) := by
      cases init <;> simp [isFunctionValue, functionValueEvents, hsigil] at hvalue ⊢
    simp [Visit.outer, declaratorOuter, hcallee, hevents]
  · simp [Visit.outer, attrOuter, attrEvents, hsigil]

end Visits

section Scripts

variable {o : Options} {session : Session} {base : Nat} {text written : List Char}
  {stmts : List Stmt}

/-- What holds of all nodes of a script holds of all below a visit. -/
theorem Visits.everywhere {P : Node → Prop}
    (hall : ∀ st ∈ stmts, Node.Everywhere Node.children P (.stmt st)) {s : Setting} {v : Visit}
    (h : Visits (scriptPieces o text stmts) s v) : Node.Everywhere Node.children P v.node := by
  refine Visits.downward (motive := fun _ v => Node.Everywhere Node.children P v.node) ?_ ?_ h
  · intro s v hv
    obtain ⟨st, hst, heq⟩ := List.mem_map.mp hv
    obtain ⟨rfl, rfl⟩ := Piece.part.inj heq
    exact hall st hst
  · intro s v _ hnode s' v' hv
    obtain ⟨_, c, hc, hreach⟩ := v.pieces_inside s s' v' hv
    exact (hnode.child hc).reached hreach

/-- All that a walk over a script comes to is written, and is looked up in the text of the script. -/
theorem Visits.sited (hsited : ∀ st ∈ stmts, SitedStmt written st) {s : Setting} {v : Visit}
    (h : Visits (scriptPieces o text stmts) s v) : s.source = text ∧ Sited written v.node := by
  obtain ⟨_, rfl⟩ := h.setting_eq
  exact ⟨rfl, h.everywhere hsited⟩

theorem mem_traceStmts_iff {ev : Event} (hframe : ev.isFrame = false) :
    ev ∈ traceStmts (setting o text) stmts ↔
      ∃ s v, Visits (scriptPieces o text stmts) s v ∧ .event ev ∈ v.pieces s := by
  rw [← expand_stmtPieces, mem_expand_iff hframe]
  simp [scriptPieces]

def Strips (o : Options) (text : List Char) (stmts : List Stmt) (id : Ident) : Prop :=
  ∃ s v, Visits (scriptPieces o text stmts) s v ∧ id ∈ v.strips

/-- What a script takes away are sigils, or the last bytes of names. -/
theorem remove_mem_traceStmts (hsited : ∀ st ∈ stmts, SitedStmt written st)
    (h : .edit (.remove lo hi) ∈ traceStmts (setting o text) stmts) :
    OnlySigils text lo hi ∨ ∃ id, Strips o text stmts id ∧ lo = id.span.hi - 1 ∧ hi = id.span.hi := by
  obtain ⟨s, v, hv, hev⟩ := (mem_traceStmts_iff rfl).mp h
  obtain ⟨rfl, hnode⟩ := hv.sited hsited
  rcases visit_anchored hnode hev with honly | ⟨id, hid, hlo, hhi⟩
  · exact .inl honly
  · exact .inr ⟨id, ⟨s, v, hv, hid⟩, hlo, hhi⟩

/-- What a script appends a value to is a whole word that it mentions. -/
theorem mention_mem_traceStmts (hsited : ∀ st ∈ stmts, SitedStmt written st) {m : Mention}
    (h : .mention m ∈ traceStmts (setting o text) stmts) : Spelled written m.id := by
  obtain ⟨s, v, hv, hev⟩ := (mem_traceStmts_iff rfl).mp h
  obtain ⟨_, hnode⟩ := hv.sited hsited
  exact visit_anchored hnode hev

/-- The removals of a script are those of its events. -/
theorem script_remove_iff :
    .remove lo hi ∈ (script o session base text stmts).edits.edits ↔
      ∃ start stop, .edit (.remove start stop) ∈ traceStmts (setting o text) stmts ∧ start < stop ∧
        lo = base + start ∧ hi = base + stop := by
  obtain ⟨emitted, imports, hedits, hemits, himports⟩ := script_emits o session base text stmts
  have himport : .remove lo hi ∉ imports := by
    intro he
    obtain ⟨statement, new, _, heq⟩ := himports _ he
    cases heq
  have hresolved (start stop : Nat) :
      .remove start stop ∉ (scriptRun o session base text stmts).resolved o := by
    intro he
    have hranges := List.flatMap_eq_nil_iff.mp (Run.ranges_resolved o _) _ he
    cases hranges
  have hemitted (start stop : Nat) : .remove start stop ∈ emitted ↔
      .edit (.remove start stop) ∈ traceStmts (setting o text) stmts := by
    refine ⟨fun he => ?_, hemits.edit_mem⟩
    obtain ⟨event, hevent, temp, he⟩ := hemits.exists_event he
    cases event with
    | edit e => exact List.mem_singleton.mp he ▸ hevent
    | _ => simp [Event.edits] at he
  rw [hedits, List.mem_append, List.mem_append, Edit.remove_mem_issuedAt, Edit.remove_mem_issuedAt]
  simp only [himport, hresolved, hemitted, false_and, exists_false, or_false]

/-- A script that has been read appends a value to each reference whose class asks for it, and to
nothing else. -/
theorem script_value_needed {dialect : Dialect} (hparse : parseModule dialect text = .ok stmts)
    {pos : Nat} : .insertAfter pos ".value" ∈ (script o session base text stmts).edits.edits ↔
      ∃ ref ∈ (scriptRun o session base text stmts).references, pos = base + ref.span.hi ∧
        (ref.classify (scriptRun o session base text stmts).scopes.leave
          (scriptRun o session base text stmts).marked o.resolution).needsValue = true := by
  have hfresh : Fresh (.start base .program session) base := ⟨rfl, rfl, rfl⟩
  have hrun : (Run.start base .program session).steps text
      (expand (stmtPieces (setting o text) stmts)) = scriptRun o session base text stmts := by
    rw [expand_stmtPieces]
    rfl
  -- the events themselves append no values
  have hevent (behind : Nat) : .edit (.insertAfter behind ".value") ∉
      expand (stmtPieces (setting o text) stmts) := by
    rw [expand_stmtPieces]
    intro h
    obtain ⟨s, v, hv, hev⟩ := (mem_traceStmts_iff rfl).mp h
    obtain ⟨_, hnode⟩ := hv.sited (parseModule_sited hparse)
    exact absurd rfl (visit_anchored hnode hev)
  have hmem (behind : Nat) : .insertAfter (base + behind) ".value" ∈
      (script o session base text stmts).edits.edits ↔
        ∃ ref ∈ (scriptRun o session base text stmts).references, ref.span.hi = behind ∧
          (ref.classify (scriptRun o session base text stmts).scopes.leave
            (scriptRun o session base text stmts).marked o.resolution).needsValue = true := by
    rw [script, ← expand_stmtPieces, insertAfter_mem_finish hfresh (.inr rfl), hrun]
    simp only [hevent, false_or, Run.resolved, List.mem_flatMap, needsValue_iff]
  constructor
  · intro h
    obtain ⟨hbase, _⟩ := script_within (parseModule_events_within hparse) _ h
    obtain ⟨behind, rfl⟩ := Nat.exists_eq_add_of_le hbase
    obtain ⟨ref, href, rfl, hneeds⟩ := (hmem behind).mp h
    exact ⟨ref, href, rfl, hneeds⟩
  · rintro ⟨ref, href, rfl, hneeds⟩
    exact (hmem ref.span.hi).mpr ⟨ref, href, rfl, hneeds⟩

/-- A script that has been read appends values only behind what it mentions. -/
theorem script_value_mention {dialect : Dialect} (hparse : parseModule dialect text = .ok stmts)
    {pos : Nat} (h : .insertAfter pos ".value" ∈ (script o session base text stmts).edits.edits) :
    ∃ m, .mention m ∈ traceStmts (setting o text) stmts ∧ pos = base + m.id.span.hi := by
  obtain ⟨ref, href, rfl, _⟩ := (script_value_needed hparse).mp h
  rw [scriptRun, ← expand_stmtPieces] at href
  have hfresh : Fresh (.start base .program session) base := ⟨rfl, rfl, rfl⟩
  obtain ⟨m, hm, ⟨_, hspan, _⟩, _⟩ := mention_of_reference hfresh href
  rw [expand_stmtPieces] at hm
  exact ⟨m, hm, by rw [hspan]⟩

end Scripts

end Walk

end RefSugar

import RefSugar.Command.Run

/-! Checking a file and transforming it. Both go through the regions one by one and stop at the first
one that cannot be read; the transform does more on its way, and may still fail at the end, over its
edits. Main statement: a check accepts a file if and only if the transform, under whatever options, can
read it, and refuses it for the same reason. -/
namespace RefSugar

open Document (Region)

/-- What a check says to a fault of the transform. That edits are at odds is no matter of reading. -/
def TransformError.reading? : TransformError → Option CheckError
  | .parse message => some (.parse message)
  | .unsupportedFile filename => some (.unsupportedFile filename)
  | .regionOutOfBounds _ _ => some .regionOutside
  | .edit _ => none

/-- Whether everything could be read, by how a transform ended. -/
def verdict {α : Type} : Except TransformError α → Except CheckError Unit
  | .ok _ => .ok ()
  | .error e =>
    match e.reading? with
    | some fault => .error fault
    | none => .ok ()

section Verdicts

variable {α : Type} {outcome : Except TransformError α}

theorem verdict_eq_ok_iff : verdict outcome = .ok () ↔
    (∀ message, outcome ≠ .error (.parse message)) ∧
    (∀ filename, outcome ≠ .error (.unsupportedFile filename)) ∧
    ∀ start stop, outcome ≠ .error (.regionOutOfBounds start stop) := by
  cases outcome with
  | ok a => simp [verdict]
  | error e => cases e <;> simp [verdict, TransformError.reading?]

theorem verdict_eq_parse_iff {message : String} :
    verdict outcome = .error (.parse message) ↔ outcome = .error (.parse message) := by
  cases outcome with
  | ok a => simp [verdict]
  | error e => cases e <;> simp [verdict, TransformError.reading?]

end Verdicts

inductive Agrees {α : Type} : Except TransformError α → Except CheckError Unit → Prop
  | ok (a : α) : Agrees (.ok a) (.ok ())
  | error {e : TransformError} {fault : CheckError} (h : e.reading? = some fault) :
    Agrees (.error e) (.error fault)

theorem Agrees.verdict_eq {α : Type} {step : Except TransformError α} {check : Except CheckError Unit}
    (h : Agrees step check) : verdict step = check := by
  cases h with
  | ok a => rfl
  | error h => simp [verdict, h]

theorem Agrees.bind {α β : Type} {step : Except TransformError α} {next : α → Except TransformError β}
    {check rest : Except CheckError Unit} (h : Agrees step check) (hnext : ∀ a, Agrees (next a) rest) :
    Agrees (step >>= next) (check >>= fun _ => rest) := by
  cases h with
  | ok a => exact hnext a
  | error h => exact .error h

/-- The region has a sigil and cannot be parsed, which is reported so. -/
def Document.Region.FailsWith (r : Region) (filename : String) (source : List Char)
    (message : String) : Prop :=
  ∃ text fault, Text.slice? r.start r.stop source = some text ∧ Sigil.containsSigil text = true ∧
    Syntax.parseModule r.dialect text = .error fault ∧ message = fault.describe filename text

section Regions

variable {o : Options} {filename : String} {source : List Char}

/-- Transforming and checking a region end alike. -/
theorem region_agrees (p : Transform.Progress) (r : Region) :
    Agrees (Transform.region o filename source p r) (checkRegion filename source r) := by
  unfold Transform.region checkRegion
  cases Text.slice? r.start r.stop source with
  | none => exact .error rfl
  | some text =>
    cases hsigil : Sigil.containsSigil text with
    | false =>
      simp only [hsigil, Bool.not_false, if_true]
      exact .ok p
    | true =>
      simp only [hsigil, Bool.not_true, Bool.false_eq_true, if_false]
      cases Syntax.parseModule r.dialect text with
      | error fault => exact .error rfl
      | ok stmts => exact .ok _

/-- The two loops stop at the same region, whatever the transform has come to before. -/
theorem foldlM_region_agrees (regions : List Region) (p : Transform.Progress) :
    Agrees (regions.foldlM (Transform.region o filename source) p)
      (regions.forM (checkRegion filename source)) := by
  induction regions generalizing p with
  | nil => exact .ok p
  | cons r regions ih =>
    rw [List.foldlM_cons]
    exact (region_agrees p r).bind ih

/-- Edits that are at odds are the only fault of the transform once everything has been read. -/
theorem verdict_splice (edits : EditSet) (names : List String) :
    verdict (do
      let result ← Transform.splice o filename source edits
      return { result with unwrapBindings := names }) = .ok () := by
  unfold Transform.splice
  split
  · rfl
  · cases edits.apply source <;> rfl

/-- A check says of a file what a transform would. -/
theorem verdict_transformFile (o : Options) (filename : String) (source : List Char) :
    verdict (transformFile o filename source) = checkFile filename source := by
  unfold transformFile checkFile
  cases Document.regionsOf? filename source with
  | none => rfl
  | some regions =>
    dsimp only [transformRegions]
    -- both loops stop at the same region, and behind them only the edits can fail
    have hloop := @foldlM_region_agrees o filename source regions {}
    generalize regions.forM (checkRegion filename source) = check at hloop ⊢
    cases hfold : regions.foldlM (Transform.region o filename source) {} with
    | ok p =>
      rw [hfold] at hloop
      cases hloop
      exact verdict_splice (p.finalEdits o) p.unwrapBindings
    | error e =>
      rw [hfold] at hloop
      exact hloop.verdict_eq

end Regions

section Faults

variable {filename : String} {source : List Char} {message : String}

/-- A check of one thing after the other fails with the first fault. -/
theorem forM_eq_error_iff {α ε : Type} {check : α → Except ε Unit} {l : List α} {fault : ε} :
    l.forM check = .error fault ↔ ∃ before a after, l = before ++ a :: after ∧
      (∀ b ∈ before, check b = .ok ()) ∧ check a = .error fault := by
  induction l with
  | nil => simp [List.forM, pure, Except.pure]
  | cons a l ih =>
    have hcons : (a :: l).forM check = check a >>= fun _ => l.forM check := rfl
    rw [hcons]
    constructor
    · intro h
      cases hcheck : check a with
      | error e =>
        obtain rfl : e = fault := by simpa [hcheck, bind, Except.bind] using h
        exact ⟨[], a, l, rfl, by simp, hcheck⟩
      | ok u =>
        obtain ⟨before, b, after, rfl, hbefore, hb⟩ := ih.mp (by simpa [hcheck, bind, Except.bind] using h)
        exact ⟨a :: before, b, after, rfl, by simpa [hcheck] using hbefore, hb⟩
    · rintro ⟨before, b, after, heq, hbefore, hb⟩
      cases before with
      | nil =>
        obtain ⟨rfl, rfl⟩ : a = b ∧ l = after := by simpa using heq
        simp [hb, bind, Except.bind]
      | cons c before =>
        obtain ⟨rfl, rfl⟩ : a = c ∧ l = before ++ b :: after := by simpa using heq
        obtain ⟨hc, hbefore⟩ := List.forall_mem_cons.mp hbefore
        have hrest := ih.mpr ⟨before, b, after, rfl, hbefore, hb⟩
        simp [hc, hrest, bind, Except.bind]

/-- A check fails with the message of the parser, for regions that have a sigil. -/
theorem checkRegion_eq_parse_iff {r : Region} :
    checkRegion filename source r = .error (.parse message) ↔ r.FailsWith filename source message := by
  unfold checkRegion Region.FailsWith
  cases Text.slice? r.start r.stop source with
  | none => simp
  | some text =>
    cases hsigil : Sigil.containsSigil text with
    | false => simp [hsigil]
    | true =>
      cases hparse : Syntax.parseModule r.dialect text with
      | ok stmts => simp [hsigil, hparse]
      | error fault =>
        constructor
        · intro h
          obtain rfl : fault.describe filename text = message := by simpa [hsigil, hparse] using h
          exact ⟨text, fault, rfl, hsigil, hparse, rfl⟩
        · rintro ⟨_, fault', ⟨⟩, _, hparse', rfl⟩
          obtain rfl : fault = fault' := Except.error.inj (hparse.symm.trans hparse')
          simp [hsigil, hparse]

theorem checkFile_eq_parse_iff :
    checkFile filename source = .error (.parse message) ↔
      ∃ before r after, Document.regionsOf? filename source = some (before ++ r :: after) ∧
        (∀ q ∈ before, checkRegion filename source q = .ok ()) ∧
        r.FailsWith filename source message := by
  unfold checkFile
  cases Document.regionsOf? filename source with
  | none => simp
  | some regions => simp only [forM_eq_error_iff, checkRegion_eq_parse_iff, Option.some.injEq]

end Faults

/-- What the command that checks a file does with one that can be read. -/
theorem Command.checkPath_run {m : Type → Type} [Monad m] [LawfulMonad m] (host : Host m)
    {path text : String} (hread : host.read path = pure (.ok text)) :
    (checkPath host path).run =
      match checkFile path text.toList with
      | .ok () => do
        host.err ("OK: " ++ path ++ "\n")
        return .ok ()
      | .error fault => return .error { message := fault.message } := by
  simp only [checkPath, readSource, touch, hread]
  cases h : checkFile path text.toList <;> simp [h]

/-- A check and the transform agree on a file, whatever the options are. The check accepts it if and
only if the transform does not fail because of its name, its regions or their text. It fails with a
message of the parser if and only if the transform fails with the same message, which is that of the
first region that cannot be parsed. Neither the session nor the edits of earlier regions matter: from
whatever progress the transform starts, it stops where the check stops. And so does the command. -/
theorem checkFile_iff_transformFile (o : Options) (filename : String) (source : List Char) :
    (checkFile filename source = .ok () ↔
      (∀ message, transformFile o filename source ≠ .error (.parse message)) ∧
      (∀ name, transformFile o filename source ≠ .error (.unsupportedFile name)) ∧
      ∀ start stop, transformFile o filename source ≠ .error (.regionOutOfBounds start stop)) ∧
    (∀ message, checkFile filename source = .error (.parse message) ↔
      transformFile o filename source = .error (.parse message)) ∧
    (∀ message, transformFile o filename source = .error (.parse message) ↔
      ∃ before r after, Document.regionsOf? filename source = some (before ++ r :: after) ∧
        (∀ q ∈ before, checkRegion filename source q = .ok ()) ∧
        r.FailsWith filename source message) ∧
    (∀ (p : Transform.Progress) (regions : List Region),
      verdict (regions.foldlM (Transform.region o filename source) p) =
        regions.forM (checkRegion filename source)) ∧
    ∀ {m : Type → Type} [Monad m] [LawfulMonad m] (host : Command.Host m),
      host.read filename = pure (.ok (String.ofList source)) →
      (Command.checkPath host filename).run =
        match verdict (transformFile o filename source) with
        | .ok () => do
          host.err ("OK: " ++ filename ++ "\n")
          return .ok ()
        | .error fault => return .error { message := fault.message } := by
  have hverdict := verdict_transformFile o filename source
  have hparse (message : String) : checkFile filename source = .error (.parse message) ↔
      transformFile o filename source = .error (.parse message) := by
    rw [← hverdict]
    exact verdict_eq_parse_iff
  refine ⟨?_, hparse, fun message => ?_, fun p regions => ?_, fun host hread => ?_⟩
  · rw [← hverdict]
    exact verdict_eq_ok_iff
  · rw [← hparse]
    exact checkFile_eq_parse_iff
  · exact (foldlM_region_agrees regions p).verdict_eq
  · rw [hverdict, Command.checkPath_run host hread, String.toList_ofList]

/-- A component whose first script can be read and whose second one cannot: the check, the transform and
the command refuse it with the message for the second one. -/
theorem checkFile_iff_transformFile_second :
    let text := "<script>let a = $f()</script><script>$(</script>"
    let message := "failed to parse t.vue:1:3: Expression expected"
    let host : Command.Host Id :=
      { isFile := fun _ => true, isDir := fun _ => false, read := fun _ => .ok text
        write := fun _ _ => .ok (), makeDirs := fun _ => .ok (), filesBelow := fun _ => .ok []
        out := fun _ => (), err := fun _ => () }
    checkFile "t.vue" text.toList = .error (.parse message) ∧
      transformFile {} "t.vue" text.toList = .error (.parse message) ∧
      host.read "t.vue" = pure (.ok (String.ofList text.toList)) ∧
      (Command.checkPath host "t.vue").run = pure (.error { message }) := by
  intro text message host
  have hcheck : checkFile "t.vue" text.toList = .error (.parse message) := by
    have htest : (match checkFile "t.vue" text.toList with
        | .error (.parse found) => found == message
        | _ => false) = true := by decide +kernel
    split at htest
    · rename_i found hfound
      rw [hfound, beq_iff_eq.mp htest]
    · cases htest
  obtain ⟨_, hparse, _, _, hcommand⟩ := checkFile_iff_transformFile {} "t.vue" text.toList
  have htransform := (hparse message).mp hcheck
  have hread : host.read "t.vue" = pure (.ok (String.ofList text.toList)) := by
    rw [String.ofList_toList]
    rfl
  have hrun := hcommand host hread
  rw [htransform] at hrun
  exact ⟨hcheck, htransform, hread, hrun⟩

end RefSugar

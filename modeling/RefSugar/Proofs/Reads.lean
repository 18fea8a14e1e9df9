import RefSugar.Proofs.Tokens
import RefSugar.Proofs.Tree

/-! Readers that keep their place in a text. A reader that starts at a token of the text stops at
one, whether it succeeds or fails, and what it gives has all its names and offsets in the text. -/
namespace RefSugar.Syntax

/-- The span can be cut out of the text, and ends where a word may end. -/
structure Span.Sited (text : List Char) (a : Span) : Prop where
  cuts_lo : Cuts text a.lo
  cuts_hi : Cuts text a.hi
  closes : Closes text a.hi

/-- An expression made of others ends where a word may end, or where the last of them does. A missing
one may end anywhere. -/
def PartsEnd (text : List Char) (span : Span) (form : Form) (parts : List Expr) : Prop :=
  Closes text span.hi ∨ form = .missing ∨ ∃ e ∈ parts.getLast?, e.span.hi = span.hi

/-- What stands in the text where the node tells: its names, and the ends of what may be edited. -/
def Written (text : List Char) : Node → Prop
  | .expr (.name id) | .property (.shorthand id) | .property (.default id _) | .pattern (.name id)
  | .field (.shorthand id _) | .stmt (.function _ id _) =>
    Spelled text id
  | .attr (.named (.plain id) _ _) => Stands text id ∧ Closes text id.span.hi
  | .expr (.compound span form parts) => PartsEnd text span form parts
  | .expr e => e.span.Sited text
  | .pattern (.object span _) | .pattern (.array span _) => span.Sited text
  | .property (.getter span _ _) | .property (.setter span _ _ _) | .property (.method span _ _) =>
    Cuts text span.lo
  | .declarator (.mk span _ _) => Cuts text span.hi
  | _ => True

abbrev Sited (text : List Char) (n : Node) : Prop :=
  Node.Everywhere Node.children (Written text) n

abbrev SitedExpr (text : List Char) (e : Expr) : Prop :=
  Cuts text e.span.lo ∧ Sited text (.expr e)

abbrev SitedKey (text : List Char) (k : Key) : Prop :=
  (∀ id, k = .name id → Spelled text id) ∧ Sited text (.key k)

theorem Spelled.sited {text : List Char} {id : Ident} (h : Spelled text id) :
    SitedExpr text (.name id) :=
  ⟨h.cuts_lo, h, by simp⟩

theorem Sited.target {text : List Char} {decorators : List Expr} {p : Pattern}
    (h : Sited text (.param (.mk decorators p))) : Sited text (.pattern p) :=
  h.child (by simp)

abbrev SitedStmt (text : List Char) (s : Stmt) : Prop :=
  Sited text (.stmt s)

abbrev SitedPattern (text : List Char) (p : Pattern) : Prop :=
  Sited text (.pattern p)

abbrev SitedItem (text : List Char) (i : Item) : Prop :=
  ∀ e ∈ i.expr?, SitedExpr text e

theorem SitedItem.sited {text : List Char} {i : Item} (h : SitedItem text i) :
    Sited text (.item i) :=
  ⟨trivial, by simpa using fun e he => (h e he).2⟩

theorem Sited.params {text : List Char} {decorators : List Expr} {params : List Param}
    {body : List Stmt} (h : Sited text (.func (.mk decorators params body))) :
    ∀ p ∈ params, Sited text (.param p) :=
  fun p hp => h.child (by simp [hp])

theorem Sited.body {text : List Char} {decorators : List Expr} {params : List Param}
    {body : List Stmt} (h : Sited text (.func (.mk decorators params body))) :
    ∀ st ∈ body, Sited text (.stmt st) :=
  fun st hst => h.child (by simp [hst])

theorem partsEnd_last {text : List Char} {lo : Nat} {form : Form} {parts : List Expr} {e : Expr}
    (h : parts.getLast? = some e) : PartsEnd text ⟨lo, e.span.hi⟩ form parts :=
  .inr (.inr ⟨e, h, rfl⟩)

theorem sited_compound {text : List Char} {span : Span} {form : Form} {parts : List Expr}
    (hend : PartsEnd text span form parts) (h : ∀ e ∈ parts, Sited text (.expr e)) :
    Sited text (.expr (.compound span form parts)) :=
  ⟨hend, by simpa using h⟩

structure State.Sited (text : List Char) (s : State) : Prop where
  token : s.token.Sited text
  last : Cuts text s.last
  last_closes : Closes text s.last

section Readers

variable {text : List Char} {α β : Type} {P Q : α → Prop} {R : β → Prop} {pre : Token → Prop}

/-- What a reader comes to, wherever it fails. -/
def Comes (text : List Char) (P : α → Prop) : EStateM.Result Fault State α → Prop
  | .ok a s => P a ∧ s.Sited text
  | .error f s => Cuts text f.offset ∧ s.Sited text

/-- The reader keeps its place if it starts at a token with `pre`, and what it gives has `P`. -/
def ReadsAt (text : List Char) (pre : Token → Prop) (P : α → Prop) (r : Reader α) : Prop :=
  ∀ m s, s.Sited text → pre s.token → Comes text P (r m s)

def Reads (text : List Char) (P : α → Prop) (r : Reader α) : Prop :=
  ∀ m s, s.Sited text → Comes text P (r m s)

/-- The reader keeps its place, whatever it gives. -/
abbrev Keeps (text : List Char) (r : Reader α) : Prop :=
  Reads text (fun _ => True) r

abbrev ReadsAll (text : List Char) (P : α → Prop) (r : Reader (List α)) : Prop :=
  Reads text (fun as => ∀ a ∈ as, P a) r

abbrev ReadsAny (text : List Char) (P : α → Prop) (r : Reader (Option α)) : Prop :=
  Reads text (fun o => ∀ a ∈ o, P a) r

theorem Comes.imp {x : EStateM.Result Fault State α} (h : Comes text P x)
    (himp : ∀ a, P a → Q a) : Comes text Q x := by
  cases x with
  | ok a s => exact ⟨himp a h.1, h.2⟩
  | error f s => exact h

theorem Reads.imp {r : Reader α} (h : Reads text P r) (himp : ∀ a, P a → Q a) : Reads text Q r :=
  fun m s hs => (h m s hs).imp himp

theorem Reads.keeps {r : Reader α} (h : Reads text P r) : Keeps text r :=
  h.imp fun _ _ => trivial

theorem Reads.at {r : Reader α} (h : Reads text P r) : ReadsAt text pre P r :=
  fun m s hs _ => h m s hs

theorem ReadsAt.reads {r : Reader α} (h : ReadsAt text (fun _ => True) P r) : Reads text P r :=
  fun m s hs => h m s hs trivial

theorem ReadsAt.of_pre {pre' : Token → Prop} {r : Reader α} (h : ReadsAt text pre P r)
    (himp : ∀ t, pre' t → pre t) : ReadsAt text pre' P r :=
  fun m s hs ht => h m s hs (himp s.token ht)

theorem Reads.pure {a : α} (h : P a) : Reads text P (pure a : Reader α) :=
  fun _ _ hs => ⟨h, hs⟩

/-- What comes of a reader is handed on if it is fine, and stays if it is a fault. -/
theorem Comes.bind {x : Reader α} {f : α → Reader β} {m : Mode} {s : State}
    (h : Comes text P (x m s)) (hf : ∀ a, P a → Reads text R (f a)) :
    Comes text R ((x >>= f) m s) := by
  change Comes text R (EStateM.bind (x m) (fun a => f a m) s)
  unfold EStateM.bind
  cases hx : x m s with
  | ok a s' =>
    rw [hx] at h
    exact hf a h.1 m s' h.2
  | error e s' =>
    rw [hx] at h
    exact h

theorem Reads.bind {x : Reader α} {f : α → Reader β} (h : Reads text P x)
    (hf : ∀ a, P a → Reads text R (f a)) : Reads text R (x >>= f) :=
  fun m s hs => (h m s hs).bind hf

/-- A reader behind one whose result plays no part. -/
theorem Reads.seq {x : Reader α} {f : α → Reader β} (h : Reads text P x)
    (hf : ∀ {a}, Reads text R (f a)) : Reads text R (x >>= f) :=
  h.bind fun _ _ => hf

theorem Reads.fails {x : Reader α} {f : α → Reader β} (h : Reads text (fun _ => False) x) :
    Reads text R (x >>= f) :=
  h.bind fun _ hfalse => hfalse.elim

theorem ReadsAt.bind {x : Reader α} {f : α → Reader β} (h : ReadsAt text pre P x)
    (hf : ∀ a, P a → Reads text R (f a)) : ReadsAt text pre R (x >>= f) :=
  fun m s hs ht => (h m s hs ht).bind hf

/-- Looking at the current token leaves it where it is. -/
theorem ReadsAt.token_bind {f : Token → Reader β}
    (h : ∀ t, t.Sited text → pre t → ReadsAt text (· = t) R (f t)) :
    ReadsAt text pre R (token >>= f) :=
  fun m s hs ht => h s.token hs.token ht m s hs rfl

theorem ReadsAt.read_bind {f : Mode → Reader β} (h : ∀ m, ReadsAt text pre R (f m)) :
    ReadsAt text pre R (read >>= f) :=
  fun m s hs ht => h m m s hs ht

theorem ReadsAt.get_bind {f : State → Reader β} (h : ∀ s, ReadsAt text pre R (f s)) :
    ReadsAt text pre R (get >>= f) :=
  fun m s hs ht => h s m s hs ht

theorem ReadsAt.ahead_bind {f : Token → Reader β}
    (h : ∀ t, t.Sited text → ReadsAt text pre R (f t)) : ReadsAt text pre R (ahead >>= f) :=
  fun m s hs ht => h (m.behind s.token) (Mode.behind_sited hs.token) m s hs ht

theorem ReadsAt.isAt_bind {w : String} {f : Bool → Reader β}
    (htrue : ReadsAt text (fun t => pre t ∧ t.isPunct w = true) R (f true))
    (hfalse : ReadsAt text pre R (f false)) : ReadsAt text pre R (isAt w >>= f) := by
  intro m s hs ht
  have heq : (isAt w >>= f) m s = f (s.token.isPunct w) m s := rfl
  rw [heq]
  cases hw : s.token.isPunct w with
  | true => exact htrue m s hs ⟨ht, hw⟩
  | false => exact hfalse m s hs ht

theorem reads_token : Reads text (Token.Sited text) token :=
  fun _ _ hs => ⟨hs.token, hs⟩

theorem reads_here : Reads text (Cuts text) here :=
  fun _ _ hs => ⟨hs.token.cuts_lo, hs⟩

theorem reads_tokenSpan : Reads text (fun span => Cuts text span.lo) tokenSpan :=
  reads_token.bind fun _ ht => .pure ht.cuts_lo

/-- The span of a word of the language, told from the current token. -/
theorem reads_wordSpan {word : String} (hword : word ≠ "") :
    ReadsAt text (fun t => t.isWord word = true) (fun span => Spelled text ⟨word, span⟩)
      tokenSpan :=
  .token_bind fun _ ht his => Reads.at (.pure (ht.spelled_role hword his))

theorem keeps_read : Keeps text (read : Reader Mode) :=
  fun _ _ hs => ⟨trivial, hs⟩

theorem reads_get : Reads text (State.Sited text) (get : Reader State) :=
  fun _ _ hs => ⟨hs, hs⟩

theorem reads_failAt {problem : Problem} {offset : Nat} (h : Cuts text offset) :
    Reads text P (failAt problem offset) :=
  fun _ _ hs => ⟨h, hs⟩

theorem reads_throw {fault : Fault} (h : Cuts text fault.offset) :
    Reads text P (throw fault : Reader α) :=
  fun _ _ hs => ⟨h, hs⟩

theorem reads_fail {problem : Problem} : Reads text P (fail problem) :=
  reads_here.bind fun _ h => reads_failAt h

theorem reads_failAtEnd : Reads text P failAtEnd :=
  reads_get.bind fun _ h => reads_failAt h.last

theorem reads_unexpected {wanted : String} : Reads text P (unexpected wanted) :=
  reads_token.seq <| reads_fail

theorem reads_ahead : Reads text (Token.Sited text) ahead :=
  fun _ _ hs => ⟨Mode.behind_sited hs.token, hs⟩

theorem keeps_advance : Keeps text advance :=
  fun _ _ hs => ⟨trivial, Mode.behind_sited hs.token, hs.token.stop.cuts, hs.token.closes⟩

theorem keeps_arrowStart {start : State → Option Nat} :
    Keeps text (modify fun s => { s with arrowStart := start s } : Reader Unit) :=
  fun _ _ hs => ⟨trivial, hs.token, hs.last, hs.last_closes⟩

/-- Another token at the same place. -/
theorem keeps_retake {kind : Token.Kind} {stop : Cursor}
    (h : ∀ t : Token, t.Sited text → pre t → Cursor.Into text stop ∧ Closes text stop.pos ∧
      Lexer.KindAt ⟨t.start, t.text⟩ stop kind) :
    ReadsAt text pre (fun _ => True) (retake kind stop) := by
  intro m s hs ht
  obtain ⟨hstop, hcloses, hkind⟩ := h s.token hs.token ht
  exact ⟨trivial, ⟨hs.token.cuts_lo, hs.token.lo_closes, hs.token.opens, hs.token.start,
    hs.token.start_closes, hstop, hcloses, hkind⟩, hs.last, hs.last_closes⟩

/-- Another token at the same place, as a scan from there finds it. -/
theorem keeps_rescan {kind : Token.Kind} {stop : Cursor}
    (h : ∀ t : Token, t.Sited text → pre t → Lexer.ScansAt ⟨t.start, t.text⟩ (kind, stop) ∧
      Cursor.Completes ⟨t.start, t.text⟩ stop.pos) :
    ReadsAt text pre (fun _ => True) (retake kind stop) := by
  refine keeps_retake fun t ht hpre => ?_
  obtain ⟨⟨hfollows, hkind⟩, hcompletes⟩ := h t ht hpre
  exact ⟨Cursor.Follows.trans ht.start hfollows,
    .of_completes ht.start ht.start_closes hcompletes, hkind⟩

theorem keeps_isAt {w : String} : Keeps text (isAt w) :=
  reads_token.seq <| .pure trivial

theorem keeps_isAtAny {ws : List String} : Keeps text (isAtAny ws) :=
  reads_token.seq <| .pure trivial

theorem keeps_isAtWord {w : String} : Keeps text (isAtWord w) :=
  reads_token.seq <| .pure trivial

theorem keeps_accept {w : String} : Keeps text (accept w) := by
  refine keeps_isAt.bind fun _ _ => ?_
  split
  · exact keeps_advance.seq <| .pure trivial
  · exact .pure trivial

theorem keeps_acceptWord {w : String} : Keeps text (acceptWord w) := by
  refine keeps_isAtWord.bind fun _ _ => ?_
  split
  · exact keeps_advance.seq <| .pure trivial
  · exact .pure trivial

theorem keeps_expect {w : String} : Keeps text (expect w) := by
  refine keeps_accept.bind fun _ _ => ?_
  split
  · exact .pure trivial
  · exact reads_token.seq <| reads_fail

theorem keeps_expectWord {w : String} : Keeps text (expectWord w) := by
  refine keeps_acceptWord.bind fun _ _ => ?_
  split
  · exact .pure trivial
  · exact reads_token.seq <| reads_fail

/-- A span up to the last token can be cut out. -/
theorem reads_spanFrom {lo : Nat} (hlo : Cuts text lo) :
    Reads text (fun a => a.lo = lo ∧ a.Sited text) (spanFrom lo) :=
  reads_get.bind fun _ hs => .pure ⟨rfl, hlo, hs.last, hs.last_closes⟩

theorem Reads.within {change : Mode → Mode} {r : Reader α} (h : Reads text P r) :
    Reads text P (within change r) :=
  fun m s hs => h (change m) s hs

theorem Reads.inTypes {r : Reader α} (h : Reads text P r) : Reads text P (inTypes r) :=
  h.within

theorem Reads.allowIn {r : Reader α} (h : Reads text P r) : Reads text P (allowIn r) :=
  h.within

theorem keeps_whenTyped {r : Reader Bool} (h : Keeps text r) : Keeps text (whenTyped r) := by
  refine keeps_read.bind fun _ _ => ?_
  split
  · exact h
  · exact .pure trivial

/-- Recovering goes on where the failure arose. -/
theorem Reads.tryCatch {r : Reader α} {handle : Fault → Reader α} (h : Reads text P r)
    (hhandle : ∀ f : Fault, Cuts text f.offset → Reads text P (handle f)) :
    Reads text P (tryCatch r handle) := by
  intro m s hs
  have hr := h m s hs
  change Comes text P (EStateM.tryCatch (r m) (fun e => handle e m) s)
  unfold EStateM.tryCatch
  cases hx : r m s with
  | ok a s' =>
    rw [hx] at hr
    exact hr
  | error e s' =>
    rw [hx] at hr
    exact hhandle e hr.1 m s' hr.2

theorem keeps_set {s : State} (h : s.Sited text) : Keeps text (set s : Reader PUnit) :=
  fun _ _ _ => ⟨trivial, h⟩

theorem Reads.attempt {r : Reader (Option α)} (h : Reads text (fun o => ∀ a ∈ o, P a) r) :
    Reads text (fun o => ∀ a ∈ o, P a) (attempt r) := by
  refine reads_get.bind fun start hstart => ?_
  have hcatch : Reads text (fun o => ∀ a ∈ o, P a)
      (MonadExcept.tryCatch r fun _ => Pure.pure none) :=
    h.tryCatch fun _ _ => .pure (by simp)
  refine hcatch.bind fun found hfound => ?_
  extract_lets jp
  have hjp : Reads text (fun o => ∀ a ∈ o, P a) (jp ()) := .pure hfound
  clear_value jp
  split
  · exact (keeps_set hstart).seq <| hjp
  · exact hjp

theorem keeps_attempt {r : Reader (Option α)} (h : Keeps text r) :
    Keeps text (attempt r) :=
  (Reads.attempt (P := fun _ => True) (h.imp fun _ _ _ _ => trivial)).keeps

theorem keeps_foresee {r : Reader Bool} (h : Keeps text r) : Keeps text (foresee r) := by
  refine reads_get.bind fun start hstart => ?_
  have hcatch : Keeps text (MonadExcept.tryCatch r fun _ => Pure.pure false) :=
    h.tryCatch fun _ _ => .pure trivial
  exact hcatch.seq <| (keeps_set hstart).seq <| .pure trivial

/-- Everything that is collected has what each step gives. -/
theorem Reads.collect {step : Reader (Option α)} (h : Reads text (fun o => ∀ a ∈ o, P a) step) :
    Reads text (fun l => ∀ a ∈ l, P a) (collect step) := by
  have hupTo : ∀ fuel, Reads text (fun l => ∀ a ∈ l, P a) (collectUpTo step fuel) := by
    intro fuel
    induction fuel with
    | zero => exact .pure (by simp)
    | succ fuel ih =>
      refine h.bind fun found hfound => ?_
      split
      · exact .pure (by simp)
      · exact ih.bind fun l hl => .pure (by simpa using ⟨hfound _ rfl, hl⟩)
  exact keeps_read.bind fun m _ => hupTo m.limit

theorem keeps_collect {step : Reader (Option α)} (h : Keeps text step) :
    Keeps text (collect step) :=
  (Reads.collect (P := fun _ => True) (h.imp fun _ _ _ _ => trivial)).keeps

/-- What every step keeps is kept in the end. -/
theorem Reads.iterate {step : α → Reader (Option α)} {a : α}
    (h : ∀ a, P a → Reads text (fun o => ∀ b ∈ o, P b) (step a)) (ha : P a) :
    Reads text P (iterate step a) := by
  have hupTo : ∀ fuel a, P a → Reads text P (iterateUpTo step fuel a) := by
    intro fuel
    induction fuel with
    | zero => exact fun a ha => .pure ha
    | succ fuel ih =>
      intro a ha
      refine (h a ha).bind fun found hfound => ?_
      split
      · exact .pure ha
      · exact ih _ (hfound _ rfl)
  exact keeps_read.bind fun m _ => hupTo m.limit a ha

theorem Reads.commaList {close : String} {element : Reader α} (h : Reads text P element) :
    Reads text (fun l => ∀ a ∈ l, P a) (commaList close element) := by
  refine Reads.collect ?_
  refine keeps_isAt.bind fun b _ => ?_
  split
  · exact .pure (by simp)
  · refine h.bind fun a ha => keeps_isAt.bind fun _ _ => ?_
    extract_lets jp
    have hjp : Reads text (fun o => ∀ a ∈ o, P a) (jp ()) := .pure (by simpa using ha)
    clear_value jp
    split
    · exact hjp
    · exact keeps_expect.seq <| hjp

theorem Reads.mapM {f : α → Reader β} :
    ∀ {as : List α}, (∀ a ∈ as, Reads text R (f a)) → ReadsAll text R (as.mapM f)
  | [], _ => by
    rw [List.mapM_nil]
    exact .pure (by simp)
  | a :: as, h => by
    rw [List.mapM_cons]
    exact (h a (by simp)).bind fun b hb =>
      (Reads.mapM fun a' ha' => h a' (by simp [ha'])).bind fun bs hbs =>
        .pure (List.forall_mem_cons.mpr ⟨hb, hbs⟩)

theorem keeps_atStatementEnd : Keeps text atStatementEnd :=
  reads_token.seq <| .pure trivial

theorem keeps_acceptStatementEnd : Keeps text acceptStatementEnd := by
  refine keeps_accept.bind fun _ _ => ?_
  split
  · exact .pure trivial
  · exact keeps_atStatementEnd

theorem keeps_expectStatementEnd : Keeps text expectStatementEnd := by
  refine keeps_acceptStatementEnd.bind fun _ _ => ?_
  split
  · exact .pure trivial
  · exact reads_token.seq <| reads_fail

theorem keeps_isAtReference : Keeps text isAtReference :=
  keeps_read.seq <| reads_token.seq <| .pure trivial

theorem reads_anyName : Reads text (Spelled text) anyName := by
  refine reads_token.bind fun t ht => ?_
  split
  · rename_i name role hkind
    exact keeps_advance.seq <| .pure (ht.spelled_word hkind).1
  · rename_i name word hkind
    exact keeps_advance.seq <| .pure (ht.spelled_escaped hkind)
  · exact reads_fail

theorem keeps_privateHash : Keeps text privateHash := by
  refine reads_here.bind fun lo hlo => keeps_expect.seq <| reads_here.seq <|
    reads_get.bind fun _ _ => ?_
  split
  · exact reads_failAt hlo
  · exact .pure trivial

/-- A name is spelled in the text, even where a reserved word is let pass. -/
theorem reads_nameOr {yieldToo awaitToo : Bool} :
    Reads text (Spelled text) (nameOr yieldToo awaitToo) := by
  refine keeps_read.seq <| reads_token.bind fun t ht => ?_
  split
  · rename_i name role hkind
    extract_lets taken checked late later
    have htaken u : Reads text (Spelled text) (taken u) :=
      keeps_advance.seq <| .pure (ht.spelled_word hkind).1
    clear_value taken
    have hchecked u : Reads text (Spelled text) (checked u) := by
      unfold checked
      split
      · exact reads_fail.fails
      · exact htaken ()
    clear_value checked
    have hlate u : Reads text (Spelled text) (late u) := by
      unfold late
      split
      · exact reads_fail.fails
      · exact hchecked ()
    clear_value late
    have hlater u : Reads text (Spelled text) (later u) := by
      unfold later
      split
      · exact reads_fail.fails
      · exact hlate ()
    clear_value later
    split
    · split
      · exact reads_fail.fails
      · exact hlater ()
    · exact hchecked ()
  · exact reads_fail

theorem reads_properName : Reads text (Spelled text) properName :=
  reads_nameOr

theorem reads_lexicalName : Reads text (Spelled text) lexicalName := by
  refine keeps_isAtWord.bind fun _ _ => ?_
  split
  · exact reads_unexpected.fails
  · exact reads_properName

theorem reads_optionalName {name : Reader Ident} (h : Reads text (Spelled text) name) :
    Reads text (fun o => ∀ id ∈ o, Spelled text id) (optionalName name) := by
  refine keeps_read.seq <| reads_token.bind fun t ht => ?_
  split
  · rename_i hthis
    rw [Bool.and_eq_true] at hthis
    exact .pure (by simpa using ht.spelled_role (by decide) hthis.2)
  · split
    · exact h.bind fun id hid => .pure (by simpa using hid)
    · exact .pure (by simp)

theorem keeps_checkToken : Keeps text checkToken := by
  refine reads_token.bind fun t ht => ?_
  have hkind := ht.kind
  split
  · rename_i problem offset hfault
    rw [hfault] at hkind
    exact reads_failAt (cuts_of_sees ht.start hkind)
  · exact reads_fail
  · exact .pure trivial

theorem keeps_checkPiece : Keeps text checkPiece := by
  refine reads_token.bind fun t ht => ?_
  have hkind := ht.kind
  split
  · rename_i more f htemplate hf
    rw [htemplate] at hkind
    obtain ⟨c, rest, htext, hc⟩ := hkind
    have hstart := Token.follows_byte htext hc
    have hsees := (Escape.templateFault?_sees hf).resolve_left (by simp)
    exact reads_failAt (cuts_of_sees ht.start (.of_follows hstart hsees))
  · exact .pure trivial
theorem keeps_acceptModifier {allowed : List String} {notStaticBlock : Bool} :
    Keeps text (acceptModifier allowed notStaticBlock) := by
  refine keeps_read.bind fun _ _ => ?_
  split
  · exact .pure trivial
  refine keeps_checkToken.seq <| reads_token.bind fun _ _ => ?_
  split
  · exact reads_failAtEnd
  · extract_lets word
    split
    · exact .pure trivial
    refine reads_ahead.bind fun _ _ => ?_
    split
    · exact .pure trivial
    · refine (Reads.attempt (P := fun _ => True) ?_).keeps
      exact keeps_advance.seq <| reads_token.seq <| .pure (by simp)
  · exact .pure trivial

theorem keeps_skipParamModifier : Keeps text skipParamModifier := by
  refine keeps_read.bind fun _ _ => ?_
  split
  · refine reads_token.seq <| reads_ahead.bind fun _ _ => ?_
    dsimp only
    split
    · exact keeps_acceptModifier.seq <| .pure trivial
    · exact .pure trivial
  · exact .pure trivial

structure Grammar.Sited (text : List Char) (g : Grammar) : Prop where
  assignment : Reads text (SitedExpr text) g.assignment
  unary : Reads text (SitedExpr text) g.unary
  leftHand : Reads text (SitedExpr text) g.leftHand
  member : Reads text (SitedExpr text) g.member
  element : ∀ nested, Reads text (SitedExpr text) (g.element nested)
  type : Keeps text g.type
  plainType : Keeps text g.plainType
  typeArgs : Keeps text g.typeArgs
  typeParams : Keeps text g.typeParams
  binding : Reads text (SitedPattern text) g.binding
  params : ReadsAll text (fun p => Syntax.Sited text (.param p)) g.params
  decorators : ∀ mayExport,
    ReadsAll text (fun e => Syntax.Sited text (.expr e)) (g.decorators mayExport)
  key : Reads text (SitedKey text) g.key
  block : ReadsAll text (SitedStmt text) g.block
  statement : ∀ declares, Reads text (SitedStmt text) (g.statement declares)
  moduleItem : Reads text (SitedStmt text) g.moduleItem

theorem Grammar.Sited.expression {g : Grammar} (hg : g.Sited text) :
    Reads text (SitedExpr text) g.expression := by
  refine reads_here.bind fun lo hlo => hg.assignment.bind fun first hfirst => ?_
  have hmore : Reads text (fun es => ∀ e ∈ es, SitedExpr text e) (collect do
      if ← accept "," then return some (← g.assignment) else return none) := by
    refine Reads.collect (keeps_accept.bind fun _ _ => ?_)
    split
    · exact hg.assignment.bind fun e he => .pure (by simpa using he)
    · exact .pure (by simp)
  refine hmore.bind fun more hmore => ?_
  split
  · exact .pure hfirst
  · refine (reads_spanFrom hlo).bind fun span hspan =>
      .pure ⟨hspan.2.1, .inl hspan.2.closes, ?_⟩
    simpa [Node.children, Node.ofExpr] using ⟨hfirst.2, fun e he => (hmore e he).2⟩

end Readers

end RefSugar.Syntax

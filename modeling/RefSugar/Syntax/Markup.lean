import RefSugar.Syntax.Calls

/-!
Reading elements. The tokens of an element's content are not those of a script, so a reader has to
know what it is part of before it goes on behind its last token.
-/
namespace RefSugar.Syntax.Markup

variable (g : Grammar)

/-- The content of an element at an offset: text, a brace, or the start of a tag. -/
def scanContent (pos : Nat) (cs : List Char) : Token.Kind × Cursor :=
  match cs with
  | [] => (.eof, ⟨pos, []⟩)
  | '\x7b' :: rest => (.punct "\x7b", ⟨pos + 1, rest⟩)
  | '<' :: '/' :: rest => (.punct "</", ⟨pos + 2, rest⟩)
  | '<' :: rest => (.punct "<", ⟨pos + 1, rest⟩)
  | cs => (.markup, Lexer.skipWhile (fun c => c != '\x7b' && c != '<') pos cs)

def advanceContent : Reader Unit := do
  let t ← token
  let (kind, stop) := scanContent t.hi t.rest
  modify fun s =>
    { s with
      token :=
        { kind, lo := t.hi, hi := stop.pos, fresh := false, start := t.hi, text := t.rest
          rest := stop.text }
      last := t.hi }

/-- Goes on behind a part of the content of an element, or of a script. -/
def advanceIn (content : Bool) : Reader Unit :=
  if content then advanceContent else advance

/-- The bracket that ends a tag stands here. It never joins with what follows it. -/
def atTagEnd : Reader Bool := do
  let t ← token
  match t.kind with
  | .punct p =>
    if p.toList.head? == some '>' && p.length > 1 then
      retake (.punct ">") ⟨t.start + 1, t.text.drop 1⟩
    isAt ">"
  | _ => return false

def needTagEnd : Reader Unit := do
  unless ← atTagEnd do fail (.expected ">" (← token).label)

def name : Reader Ident := do
  let t ← token
  match t.kind with
  | .word _ _ | .escapedWord _ _ =>
    let stop := Lexer.skipWhile (fun c => Text.isExtender c || c == '-') t.start t.text
    let word := String.ofList (Lexer.front t.text stop)
    retake (.word word none) stop
    advance
    return ⟨word, ⟨t.lo, stop.pos⟩⟩
  | _ => unexpected "jsx identifier"

/-- The name of an element, with its text as written in an error. -/
def elementName : Reader String := do
  let first ← name
  if ← accept ":" then
    let second ← name
    return first.name ++ ":" ++ second.name
  iterate (fun text => do
    if ← accept "." then
      let next ← name
      return some (text ++ "." ++ next.name)
    else return none) first.name

/-- An expression in braces, up to but not including the closing brace. -/
def braced (maySpread : Bool) : Reader (Option Expr) := do
  advance
  if ← isAt "\x7d" then return none
  if maySpread then
    let _ ← accept "..."
  let e ← g.expression
  unless ← isAt "\x7d" do fail (.expected "\x7d" (← token).label)
  return some e

/-- Behind the text of an attribute, which knows no escapes. Its closing quote belongs to it only if
more than one byte follows. -/
def quoted : Reader Unit := do
  let t ← token
  match t.text with
  | quote :: rest =>
    let stop := Lexer.skipWhile (· != quote) (t.start + 1) rest
    match stop.text with
    | _ :: next :: after =>
      if after.isEmpty && next.utf8Size == 1 then retake .string stop
      else retake .string ⟨stop.pos + 1, next :: after⟩
    | _ => retake .string stop
  | [] => pure ()

def attrValue (name : AttrName) : Reader Attr := do
  let t ← token
  if t.isPunct "\x7b" then
    let e ← braced g false
    advance
    return .named name true e
  else if t.isPunct "<" then
    let e ← g.element false
    return .named name false (some e)
  else if t.text.head? == some '"' || t.text.head? == some '\'' then
    quoted
    advance
    return .named name false none
  else fail .attributeValue

def attr : Reader Attr := do
  if ← accept "\x7b" then
    expect "..."
    let e ← g.assignment
    expect "\x7d"
    return .spread e
  let first ← name
  let attrName ← do
    if ← accept ":" then
      let _ ← name
      pure (.qualified (← spanFrom first.span.lo) first.name)
    else pure (.plain first)
  if ← accept "=" then
    within (fun m => { m with inCond := false, colonAhead := false }) (attrValue g attrName)
  else return .named attrName false none

/-- One child. Text is no child. Nothing is left at the closing tag or at the end. -/
def child : Reader (Option (Option Expr)) := do
  let t ← token
  match t.kind with
  | .markup =>
    advanceContent
    return some none
  | .punct "\x7b" =>
    let e ← braced g true
    advanceContent
    return some e
  | .punct "<" => return some (some (← g.element true))
  | _ => return none

/-- The children of an element. One that cannot be read ends them, and it is for the closing tag to
tell what is wrong. -/
def children : Reader (List Expr) := do
  let found ← collect (try child g catch _ => pure none)
  return found.filterMap id

/-- The end of a tag behind which an element is complete, and the span from `lo` up to there. -/
def lastBracket (nested : Bool) (lo : Nat) : Reader Span := do
  needTagEnd
  let span : Span := ⟨lo, (← token).hi⟩
  advanceIn nested
  return span

/-- The content of an element and its closing tag. The tag has to repeat the name, if there is
one. -/
def content (nested : Bool) (lo : Nat) (opened : Option String) : Reader (List Expr × Span) := do
  advanceContent
  let found ← children g
  expect "</"
  match opened with
  | none => return (found, ← lastBracket nested lo)
  | some opened =>
    let start ← here
    let closed ← elementName
    let span ← lastBracket nested lo
    if closed != opened then failAt (.closingTag opened) start
    return (found, span)

/-- An element; `nested` tells that it is part of the content of another one. -/
def element (nested : Bool) : Reader Expr := do
  let lo ← here
  expect "<"
  if ← atTagEnd then
    let (found, span) ← content g nested lo none
    return .element span [] found
  let opened ← elementName
  if ← whenTyped (isAt "<") then
    let _ ← attempt do
      g.typeArgs
      return some ()
  let attrs ← collect do
    if (← atTagEnd) || (← isAt "/") then return none
    return some (← attr g)
  if ← accept "/" then return .element (← lastBracket nested lo) attrs []
  let (found, span) ← content g nested lo (some opened)
  return .element span attrs found

end RefSugar.Syntax.Markup

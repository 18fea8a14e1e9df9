import RefSugar.Dialect
import RefSugar.Text.Bytes
import RefSugar.Text.Letters

/-!
The script regions of a component document: what stands between a script tag and the next closing
tag. Comments of the document hide tags.
-/
namespace RefSugar.Document

/-- A script in a document, by the byte offsets of its text. -/
structure Region where
  start : Nat
  stop : Nat
  dialect : Dialect
  setup : Bool
  deriving DecidableEq, Repr

def Region.whole (source : List Char) (dialect : Dialect) : Region :=
  { start := 0, stop := Text.width source, dialect, setup := false }

/-- The text in front of the first occurrence of `mark` and the text behind it. -/
def splitAtFirst (mark : List Char) : List Char → Option (List Char × List Char)
  | [] => none
  | c :: cs =>
    if mark.isPrefixOf (c :: cs) then some ([], (c :: cs).drop mark.length)
    else (splitAtFirst mark cs).map fun (front, behind) => (c :: front, behind)

/-- Words with blanks between them. `word` holds the characters of the current one, last first. -/
def splitWords (word : List Char) : List Char → List (List Char)
  | [] => if word.isEmpty then [] else [word.reverse]
  | c :: cs =>
    if Text.isSpace c then
      if word.isEmpty then splitWords [] cs else word.reverse :: splitWords [] cs
    else splitWords (c :: word) cs

def dropEnd (p : Char → Bool) (cs : List Char) : List Char :=
  (cs.reverse.dropWhile p).reverse

def isQuote (c : Char) : Bool :=
  c == '"' || c == '\''

/-- An attribute of a tag, with its value if it has one. -/
def tagAttr (word : List Char) : List Char × Option (List Char) :=
  match splitAtFirst ['='] word with
  | some (name, value) => (name, some (dropEnd isQuote (value.dropWhile isQuote)))
  | none => (dropEnd (· == '/') word, none)

def attributes (text : List Char) : List (List Char × Option (List Char)) :=
  (splitWords [] text).map tagAttr

def hasAttribute (text : List Char) (name : String) : Bool :=
  (attributes text).any (·.1 == name.toList)

def attributeValue? (text : List Char) (name : String) : Option String :=
  ((attributes text).find? (·.1 == name.toList)).bind fun (_, value) => value.map String.ofList

/-- The attributes end with a slash: the tag has no content. -/
def isSelfClosing (attrs : List Char) : Bool :=
  (dropEnd Text.isSpace attrs).getLast? == some '/'

def openTag : List Char := "<script".toList

def closeTag : List Char := "</script>".toList

/-- A script tag, and not a longer name, starts here. -/
def startsScript (cs : List Char) : Bool :=
  openTag.isPrefixOf cs && (cs.drop openTag.length).head?.any fun c => c == '>' || Text.isSpace c

/-- The regions of a text that starts at offset `pos`. `fuel` bounds the number of steps. -/
def regionsFrom : Nat → Nat → List Char → List Region
  | 0, _, _ => []
  | _, _, [] => []
  | fuel + 1, pos, c :: cs =>
    let text := c :: cs
    if "<!--".toList.isPrefixOf text then
      match splitAtFirst "-->".toList text with
      | none => []
      | some (front, behind) => regionsFrom fuel (pos + Text.width front + 3) behind
    else if startsScript text then
      match splitAtFirst ['>'] (text.drop openTag.length) with
      | none => []
      | some (attrs, content) =>
        let start := pos + 8 + Text.width attrs
        if isSelfClosing attrs then regionsFrom fuel start content
        else
          match splitAtFirst closeTag content with
          | none => []
          | some (body, behind) =>
            let stop := start + Text.width body
            let more := regionsFrom fuel (stop + 9) behind
            if body.isEmpty then more
            else
              { start, stop
                dialect := Dialect.ofAttr (attributeValue? attrs "lang")
                setup := hasAttribute attrs "setup" } :: more
    else regionsFrom fuel (pos + c.utf8Size) cs

def scriptRegions (source : List Char) : List Region :=
  regionsFrom source.length 0 source

/-- The regions of a file. A script is one region; a component has those of its script tags; any
other file has none to tell. -/
def regionsOf? (filename : String) (source : List Char) : Option (List Region) :=
  if Dialect.isComponentPath filename then some (scriptRegions source)
  else (Dialect.ofPath? filename).map fun dialect => [.whole source dialect]

end RefSugar.Document

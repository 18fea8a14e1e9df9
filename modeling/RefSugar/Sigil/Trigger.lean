/-!
Which names trigger something. The sigil is the dollar sign.
-/
namespace RefSugar.Sigil

def endsWithSigil (name : String) : Bool :=
  name.toList.getLast? == some '$'

/-- `$$`: the argument is meant as the reference it is. -/
def isExplicitWrap (callee : String) : Bool :=
  callee == "$$"

/-- A sigil in front: what is called gives a reference, and its value is wanted. -/
def isUnwrapCall (ignore : List String) (callee : String) : Bool :=
  match callee.toList with
  | '$' :: rest => rest != ['$'] && !ignore.contains (String.ofList rest)
  | _ => false

/-- A sigil behind: what is called takes references. -/
def isAutoWrapCall (callee : String) : Bool :=
  endsWithSigil callee && !isExplicitWrap callee

/-- A declared name with a sigil behind it. -/
def isSigilName (name : String) : Bool :=
  1 < name.length && endsWithSigil name

/-- An attribute with a sigil behind its name. Two sigils in all are part of the name. -/
def isSigilAttribute (name : String) : Bool :=
  isSigilName name && name.toList.count '$' != 2

end RefSugar.Sigil

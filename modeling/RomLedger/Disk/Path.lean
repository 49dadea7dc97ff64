import RomLedger.Text.Basic

/- Paths: a text as it was given, and names joined to it since. The text stays as it was for messages; looking
   something up needs only the names. -/
namespace RomLedger

structure Path where
  text : String
  below : List String
  deriving DecidableEq, Repr, Inhabited

namespace Path

def ofString (s : String) : Path := ⟨s, []⟩

def join (p : Path) (name : String) : Path := { p with below := p.below ++ [name] }

/-- One name behind another text, with a slash between them where there is none. -/
def joined (s name : String) : String :=
  match s.toList.getLast? with
  | none | some '/' => s ++ name
  | _ => s ++ "/" ++ name

def shown (p : Path) : String := p.below.foldl joined p.text

def namesOf (s : String) : List String :=
  let parts := Text.split '/' s.toList
  let names := parts.filterMap fun p => if p.isEmpty then none else some (String.ofList p)
  if parts.getLast? = some [] ∧ names ≠ [] then names ++ ["."] else names

def names (p : Path) : List String := namesOf p.text ++ p.below

def isAbsolute (s : String) : Bool := s.toList.head? == some '/'

def parentOf (s : String) : Option String :=
  let body := s.toList.reverse.dropWhile (· == '/')
  if body.isEmpty then none
  else
    let above := body.dropWhile (· != '/')
    let kept := above.dropWhile (· == '/')
    some (if kept.isEmpty ∧ ¬above.isEmpty then "/" else String.ofList kept.reverse)

def parent? (p : Path) : Option Path :=
  match p.below with
  | [] => (parentOf p.text).map ofString
  | below => some { p with below := below.dropLast }

def extensionOf (name : String) : Option String :=
  if name = ".." then none
  else
    let rev := name.toList.reverse
    let tail := rev.takeWhile (· != '.')
    match rev.drop tail.length with
    | [] | [_] => none
    | _ => some (String.ofList tail.reverse)

def extension? (p : Path) : Option String := p.names.getLast?.bind extensionOf

end Path
end RomLedger

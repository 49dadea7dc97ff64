import RomLedger.Markup.Tag

/- Prefix bindings in force. A start tag opens a scope, the read after its end tag closes it. Two prefixes are
   reserved, and so are the two names that they stand for. -/
namespace RomLedger.Markup

structure Binding where
  depth : Nat
  pre : Bytes
  name : Bytes
  deriving DecidableEq, Repr

/-- The bindings, innermost first, and whether the scope on top closes with the next read. -/
structure Scopes where
  depth : Nat
  bindings : List Binding
  closing : Bool
  deriving DecidableEq, Repr

namespace Scopes

def outermost : Scopes := ⟨0, [], false⟩

def xmlName : Bytes := Bytes.ofString ("http:" ++ "//www.w3.org/XML/1998/namespace")
def xmlnsName : Bytes := Bytes.ofString ("http:" ++ "//www.w3.org/2000/xmlns/")
def instanceName : Bytes := Bytes.ofString ("http:" ++ "//www.w3.org/2001/XMLSchema-instance")
def xmlPrefix : Bytes := Bytes.ofString "xml"
def xmlnsPrefix : Bytes := Bytes.ofString "xmlns"

def leave (s : Scopes) : Scopes :=
  let depth := s.depth - 1
  { s with depth := depth, bindings := s.bindings.dropWhile fun b => depth < b.depth }

def settle (s : Scopes) : Scopes := if s.closing then { s.leave with closing := false } else s

/-- The prefix that an attribute binds: none for the default, or a named one. -/
def bound? (key : Bytes) : Option (Option Bytes) :=
  if key = xmlnsPrefix then some none
  else if (xmlnsPrefix ++ [colon]).isPrefixOf key then some (some (key.drop 6))
  else none

def bind (s : Scopes) : List Attribute → Except ScopeFault Scopes
  | [] => .ok s
  | a :: rest =>
    match bound? a.key with
    | none => s.bind rest
    | some none => { s with bindings := ⟨s.depth, [], a.value⟩ :: s.bindings }.bind rest
    | some (some p) =>
      if p = xmlPrefix then
        if a.value = xmlName then s.bind rest else .error (.xmlPrefix a.value)
      else if p = xmlnsPrefix then .error (.xmlnsPrefix a.value)
      else if a.value = xmlName then .error (.xmlName p)
      else if a.value = xmlnsName then .error (.xmlnsName p)
      else { s with bindings := ⟨s.depth, p, a.value⟩ :: s.bindings }.bind rest

def enter (s : Scopes) (t : Tag) : Except ScopeFault Scopes :=
  { s with depth := s.depth + 1 }.bind t.plainAttributes

def isNil (s : Scopes) (t : Tag) : Bool :=
  t.attributes.any fun
    | .ok a =>
      match prefix? a.key with
      | none => false
      | some p =>
        (s.bindings.find? fun b => b.pre = p).any (fun b => b.name = instanceName)
          && localName a.key = Bytes.ofString "nil"
          && (a.value = Bytes.ofString "true" || a.value = Bytes.ofString "1")
    | .error _ => false

end Scopes
end RomLedger.Markup

/-!
Arguments of a command, sorted into options and values.
-/

namespace Viewlet

/-- The options that arguments set, and the values that stand by themselves. -/
structure Arguments where
  root : Option String := none
  check : Bool := false
  values : List String := []
  deriving DecidableEq, Repr

namespace Arguments

/-- Whether an argument has the form of an option: a dash with something behind it. -/
def isOption (argument : String) : Bool :=
  match argument.toList with
  | '-' :: _ :: _ => true
  | _ => false

/-- The name that an argument gives to the root by itself. -/
def attachedRoot? (argument : String) : Option String :=
  ("--root=".toList.isPrefixOf? argument.toList).map String.ofList

/-- Sorts arguments, in any order. An option is set at most once, its value does not look
like an option, and what follows two dashes is a value whatever it looks like. -/
def sort (given : Arguments) : List String → Option Arguments
  | [] => some given
  | "--" :: rest => some { given with values := given.values ++ rest }
  | "--check" :: rest =>
      if given.check then none else sort { given with check := true } rest
  | "--root" :: root :: rest =>
      if given.root.isSome ∨ isOption root then none
      else sort { given with root := some root } rest
  | argument :: rest =>
      match attachedRoot? argument with
      | some root =>
          if given.root.isSome then none else sort { given with root := some root } rest
      | none =>
          if isOption argument then none
          else sort { given with values := given.values ++ [argument] } rest

/-- Whether no option is set. -/
def isPlain (given : Arguments) : Bool :=
  given.root.isNone && !given.check

/-- The file that the only value names. -/
def file? (given : Arguments) : Option String :=
  match given.values with
  | [file] => if file.isEmpty then none else some file
  | _ => none

end Arguments

end Viewlet

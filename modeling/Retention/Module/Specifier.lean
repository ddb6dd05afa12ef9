import Retention.Failure

/-!
# Module specifiers

A specifier that starts with `./` or `../` is relative to the directory of the
importing module; any other stands for itself.

* `Specifier.resolve`: the specifier that a target denotes in an importer.
-/

namespace Retention.Specifier

/-- The parts of a text between slashes; a text without a slash is one part. -/
def parts : List Char → List (List Char)
  | [] => [[]]
  | '/' :: rest => [] :: parts rest
  | c :: rest =>
    match parts rest with
    | [] => [[c]]
    | part :: more => (c :: part) :: more

/-- Parts written with slashes between them. -/
def join (parts : List (List Char)) : List Char := List.intercalate ['/'] parts

theorem parts_ne_nil (s : List Char) : parts s ≠ [] := by
  match s with
  | [] => simp [parts]
  | '/' :: rest => simp [parts]
  | c :: rest =>
    unfold parts
    split <;> simp_all
    split <;> simp

/-- Splitting a text and joining its parts gives the text back. -/
theorem join_parts (s : List Char) : join (parts s) = s := by
  induction s with
  | nil => rfl
  | cons c rest ih =>
    obtain ⟨part, more, h⟩ := List.exists_cons_of_ne_nil (parts_ne_nil rest)
    rw [h] at ih
    by_cases hc : c = '/'
    · subst hc
      simp [parts, h, join, List.intercalate] at ih ⊢
      exact ih
    · have hp : parts (c :: rest) = (c :: part) :: more := by
        unfold parts
        split <;> simp_all
      rw [hp]
      cases more <;> simpa [join, List.intercalate] using ih

/-- Whether a specifier is relative to its importer. -/
def isRelative : List Char → Bool
  | '.' :: '/' :: _ => true
  | '.' :: '.' :: '/' :: _ => true
  | _ => false

/-- One step along a path, whose directories are listed innermost first: a dot
or nothing stays, two dots leave the innermost directory, which must have a
name, and anything else enters a directory. -/
def enter? (directories : List (List Char)) (part : List Char) : Option (List (List Char)) :=
  if part = [] ∨ part = ['.'] then some directories
  else if part = ['.', '.'] then
    match directories with
    | [] | [] :: _ => none
    | _ :: outer => some outer
  else some (part :: directories)

/-- The specifier that `target` denotes when `importer` imports it; none if it
leads out of the importer's root. -/
def resolve? (target importer : String) : Option String :=
  if isRelative target.toList then
    let directories := (parts importer.toList).dropLast.reverse
    ((parts target.toList).foldlM enter? directories).map fun path =>
      String.ofList (join path.reverse)
  else some target

/-- The failure of a specifier that leads out of its importer's root. -/
def escapes (target importer : String) : HostFailure :=
  .message s!"{Text.quoted target} escapes the root of {Text.quoted importer}"

/-- The specifier that `target` denotes when `importer` imports it. -/
def resolve (target importer : String) : Except HostFailure String :=
  match resolve? target importer with
  | some specifier => .ok specifier
  | none => .error (escapes target importer)

theorem resolve?_of_not_isRelative {target : String} (importer : String)
    (h : isRelative target.toList = false) : resolve? target importer = some target := by
  simp [resolve?, h]

end Retention.Specifier

import PathGlob.Text.Quoted

/-! Paths as an anchor and the names below it.

Reading a path drops empty names and single dots but keeps pairs of dots, so a path
has one text. A relative path of no names is written as a dot. -/
namespace PathGlob

/-- Where a path starts. Exactly two leading separators are an anchor of their own. -/
inductive Anchor where
  | here
  | root
  | doubleRoot
deriving DecidableEq

structure Path where
  anchor : Anchor
  names : List Text
deriving DecidableEq

namespace Anchor

def text : Anchor → Text
  | here => []
  | root => ['/']
  | doubleRoot => ['/', '/']

def ofText : Text → Anchor
  | '/' :: '/' :: '/' :: _ => root
  | '/' :: '/' :: _ => doubleRoot
  | '/' :: _ => root
  | _ => here

end Anchor

namespace Path

/-- The names of a text between separators, without empty names and single dots. -/
def namesOf (s : Text) : List Text := (s.splitOn '/').filter fun n => n ≠ [] && n ≠ ['.']

def ofText (s : Text) : Path := ⟨.ofText s, namesOf s⟩

def text (p : Path) : Text :=
  if p.anchor = .here && p.names.isEmpty then ['.']
  else p.anchor.text ++ ['/'].intercalate p.names

/-- The path `s` as seen from `p`: below it, or `s` itself when `s` has an anchor. -/
def join (p : Path) (s : Text) : Path :=
  if Anchor.ofText s = .here then { p with names := p.names ++ namesOf s } else ofText s

/-- The last name; empty when there is none. -/
def name (p : Path) : Text := p.names.getLast?.getD []

def debugText (p : Path) : Text := "PosixPath(".toList ++ p.text.quoted ++ [')']

theorem namesOf_eq_of_plain {n : Text} (h : '/' ∉ n) (h₁ : n ≠ []) (h₂ : n ≠ ['.']) :
    namesOf n = [n] := by
  simp [namesOf, List.splitOn_eq_singleton h, h₁, h₂]

/-- Joining a plain name puts it below the path. -/
theorem join_of_plain (p : Path) {n : Text} (h : '/' ∉ n) (h₁ : n ≠ []) (h₂ : n ≠ ['.']) :
    p.join n = { p with names := p.names ++ [n] } := by
  have ha : Anchor.ofText n = .here := by
    unfold Anchor.ofText
    split <;> simp_all
  simp [join, ha, namesOf_eq_of_plain h h₁ h₂]

end Path
end PathGlob

import PathGlob.Pattern.Item

/-! Compiled patterns: a source with the tokens it reads to.

Because the tokens are those of the source, patterns with equal sources are equal
(`eq_of_source_eq`). -/
namespace PathGlob

/-- The tokens of a source. -/
def Token.ofSource (source : Text) : Except PatternError (List Token) :=
  (Item.readAll none 0 source).map fun items => merged (items.map Item.token)

structure Pattern where
  source : Text
  tokens : List Token
  ofSource_source : Token.ofSource source = .ok tokens

namespace Pattern

def compile (source : Text) : Except PatternError Pattern :=
  match h : Token.ofSource source with
  | .error e => .error e
  | .ok tokens => .ok ⟨source, tokens, h⟩

theorem eq_of_source_eq {p q : Pattern} (h : p.source = q.source) : p = q := by
  obtain ⟨s, ts, hs⟩ := p
  obtain ⟨s', ts', hs'⟩ := q
  obtain rfl : s = s' := h
  rw [hs] at hs'
  cases hs'
  rfl

instance : DecidableEq Pattern := fun p q =>
  if h : p.source = q.source then isTrue (eq_of_source_eq h)
  else isFalse fun e => h (congrArg source e)

theorem source_of_compile {s : Text} {p : Pattern} (h : compile s = .ok p) : p.source = s := by
  unfold compile at h
  split at h
  · simp at h
  · cases h; rfl

theorem compile_source (p : Pattern) : compile p.source = .ok p := by
  unfold compile
  split
  · rename_i e he
    rw [p.ofSource_source] at he
    cases he
  · exact congrArg Except.ok (eq_of_source_eq rfl)

theorem compile_eq_ok {source : Text} {ts : List Token} (h : Token.ofSource source = .ok ts) :
    compile source = .ok ⟨source, ts, h⟩ := compile_source ⟨source, ts, h⟩

/-- Whether the pattern reaches into folders at any depth. -/
def isRecursive (p : Pattern) : Bool := p.tokens.any (· == .deep)

/-- Whether the pattern stands for its own source alone. -/
def isLiteral (p : Pattern) : Bool := p.tokens.all Token.isChar

theorem isRecursive_of_isLiteral {p : Pattern} (h : p.isLiteral = true) : p.isRecursive = false := by
  refine List.any_eq_false.2 fun t ht hd => ?_
  have hc := List.all_eq_true.1 h t ht
  rw [beq_iff_eq.1 hd] at hc
  cases hc

def debugText (p : Pattern) : Text := "Pattern(".toList ++ p.source.quoted ++ [')']

end Pattern
end PathGlob

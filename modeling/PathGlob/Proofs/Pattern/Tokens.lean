import PathGlob.Proofs.Pattern.Faults
import PathGlob.Proofs.Pattern.Literal

/-! What the tokens of a pattern look like.

Side by side, `**` stands behind a separator only (`Token.placed_tokens`) and `*` never behind
another (`Item.Row.isChain_run`). One by one, a character is none that opens an item of another kind,
and a set has a member (`Item.Reads.not_opener`, `Item.Reads.spans_ne_nil`). All items but characters
start with an opener, so a pattern is plain exactly if its source has none (`Pattern.isLiteral_iff`),
and its tokens are then the characters of the source. -/
namespace PathGlob

namespace Item
variable {before : Option Char} {s rest : Text} {item : Item} {items : List Item}

/-- The characters that open an item of another kind than a character. -/
def openers : List Char := ['?', '*', '[']

/-! ### One item -/

theorem Reads.not_opener {c : Char} (h : Reads before s item rest) (ht : item.token = .char c) :
    c ∉ openers := by
  cases h with
  | char h₁ h₂ h₃ =>
    cases ht
    simp [openers, h₁, h₂, h₃]
  | _ => cases ht

theorem spans_ne_nil (x : Char) (body : Text) : spans (x :: body) ≠ [] := by
  intro h
  cases members_iff.2 h

theorem Reads.spans_ne_nil {b : Bracket} (h : Reads before s item rest)
    (ht : item.token = .bracket b) : b.spans ≠ [] := by
  cases h with
  | bracket =>
    cases ht
    exact Item.spans_ne_nil _ _
  | negated =>
    cases ht
    exact Item.spans_ne_nil _ _
  | _ => cases ht

/-- `*` takes the only star where it stands. -/
theorem Reads.star_of_run (h : Reads before s item rest) (ht : item.token = .run) :
    s.head? = some '*' ∧ rest.head? ≠ some '*' := by
  cases h with
  | run h => exact ⟨rfl, h⟩
  | _ => cases ht

/-- An item is a character exactly if its text has no opener. -/
theorem Reads.isChar_iff (h : Reads before s item rest) :
    item.token.isChar = true ↔ ∀ c ∈ item.text, c ∉ openers := by
  cases h with
  | char h₁ h₂ h₃ => simp [token, Token.isChar, text, openers, h₁, h₂, h₃]
  | _ => simp [token, Token.isChar, text, openers]

/-! ### Whole sources -/

/-- Each item of a row stands first somewhere. -/
theorem Row.exists_reads (h : Row before s items) :
    ∀ item ∈ items, ∃ before s rest, Reads before s item rest := by
  induction h with
  | nil => simp
  | cons hi _ ih => exact List.forall_mem_cons.2 ⟨⟨_, _, _, hi⟩, ih⟩

theorem Row.star_of_run (h : Row before s items) (ht : .run ∈ (items.map token).head?) :
    s.head? = some '*' := by
  cases h with
  | nil => cases ht
  | cons hi _ => exact (hi.star_of_run (Option.some.inj ht)).1

/-- No `*` is read right behind another: two stars in a row are `**` or no item. -/
theorem Row.isChain_run (h : Row before s items) :
    (items.map token).IsChain fun t u => ¬ (t = .run ∧ u = .run) := by
  induction h with
  | nil => exact .nil
  | cons hi hmore ih =>
    refine List.isChain_cons.2 ⟨fun u hu hq => ?_, ih⟩
    rw [hq.2] at hu
    exact (hi.star_of_run hq.1).2 (hmore.star_of_run hu)

end Item

namespace Pattern
open Item (openers)

/-- Each token of a pattern is that of an item of its source. -/
theorem exists_reads {p : Pattern} {t : Token} (ht : t ∈ p.tokens) :
    ∃ item before s rest, Item.Reads before s item rest ∧ item.token = t := by
  obtain ⟨items, hrow, htokens⟩ := p.exists_row
  rw [← htokens, Token.mem_merged] at ht
  obtain ⟨item, hi, rfl⟩ := List.mem_map.1 ht
  obtain ⟨before, s, rest, hreads⟩ := hrow.exists_reads item hi
  exact ⟨item, before, s, rest, hreads, rfl⟩

theorem isChain_run (p : Pattern) : p.tokens.IsChain fun t u => ¬ (t = .run ∧ u = .run) := by
  obtain ⟨items, hrow, htokens⟩ := p.exists_row
  rw [← htokens]
  exact Token.isChain_merged hrow.isChain_run

/-- Only a separator stands right in front of `**`. -/
theorem eq_separator_of_deep {p : Pattern} {t : Token} (h : [t, .deep] <:+: p.tokens) :
    t = .char '/' := by
  have hpair := List.IsChain.infix (Token.placed_tokens p).isChain h
  exact List.isChain_pair.1 hpair rfl

/-- **A pattern is plain exactly if nothing in its source opens another item.** -/
theorem isLiteral_iff (p : Pattern) : p.isLiteral = true ↔ ∀ c ∈ p.source, c ∉ openers := by
  obtain ⟨items, hrow, htokens⟩ := p.exists_row
  have hitem : ∀ item ∈ items, item.token.isChar = true ↔ ∀ c ∈ item.text, c ∉ openers := by
    intro item hi
    obtain ⟨_, _, _, hreads⟩ := hrow.exists_reads item hi
    exact hreads.isChar_iff
  calc p.isLiteral = true
      ↔ ∀ item ∈ items, item.token.isChar = true := by
        simp only [isLiteral, ← htokens, List.all_eq_true, Token.mem_merged, List.forall_mem_map]
    _ ↔ ∀ item ∈ items, ∀ c ∈ item.text, c ∉ openers := forall₂_congr hitem
    _ ↔ ∀ c ∈ p.source, c ∉ openers := by
        rw [← hrow.flatMap_text]
        exact List.forall_mem_flatMap.symm

/-- What the tokens of a pattern look like, side by side, one by one, and next to its source. -/
structure Shaped (p : Pattern) : Prop where
  /-- `**` comes first or right behind a separator. -/
  deep_starts : ∀ front rest, p.tokens = front ++ .deep :: rest →
    front = [] ∨ front.getLast? = some (.char '/')
  not_deep_deep : ¬ [.deep, .deep] <:+: p.tokens
  not_run_run : ¬ [.run, .run] <:+: p.tokens
  not_behind : ∀ t, [t, .deep] <:+: p.tokens → t ≠ .run ∧ t ≠ .one ∧ ∀ b, t ≠ .bracket b
  not_opener : ∀ c, .char c ∈ p.tokens → c ∉ openers
  spans_ne_nil : ∀ b, .bracket b ∈ p.tokens → b.spans ≠ []
  isLiteral_iff : p.isLiteral = true ↔ ∀ c ∈ p.source, c ∉ openers
  tokens_of_literal : p.isLiteral = true → p.tokens = p.source.map .char

/-- **Whatever compiles has well-shaped tokens.** -/
theorem shaped_of_compile {source : Text} {p : Pattern} (h : compile source = .ok p) :
    p.source = source ∧ p.Shaped := by
  refine ⟨source_of_compile h, ?_⟩
  constructor
  case deep_starts =>
    intro front rest ht
    rcases List.eq_nil_or_concat front with hnil | ⟨init, t, rfl⟩
    · exact .inl hnil
    · have hinfix : [t, .deep] <:+: p.tokens := ⟨init, rest, by simp [ht]⟩
      simp [eq_separator_of_deep hinfix]
  case not_deep_deep =>
    intro hinfix
    cases eq_separator_of_deep hinfix
  case not_run_run =>
    intro hinfix
    have hpair := List.IsChain.infix p.isChain_run hinfix
    exact List.isChain_pair.1 hpair ⟨rfl, rfl⟩
  case not_behind =>
    intro t hinfix
    rw [eq_separator_of_deep hinfix]
    exact ⟨nofun, nofun, nofun⟩
  case not_opener =>
    intro c hc
    obtain ⟨_, _, _, _, hreads, ht⟩ := exists_reads hc
    exact hreads.not_opener ht
  case spans_ne_nil =>
    intro b hb
    obtain ⟨_, _, _, _, hreads, ht⟩ := exists_reads hb
    exact hreads.spans_ne_nil ht
  case isLiteral_iff => exact p.isLiteral_iff
  case tokens_of_literal => exact tokens_of_literal

/-- The separator in front of the second `**` is taken by the first, so only one is left, and a
closing bracket and a star are members of the set. -/
theorem shaped_of_compile_row :
    ∃ p, compile "a/**/**/[]*]?*".toList = .ok p ∧
      p.tokens = [.char 'a', .char '/', .deep, .bracket ⟨[.single ']', .single '*'], false⟩,
        .one, .run] ∧
      p.source = "a/**/**/[]*]?*".toList ∧ p.Shaped := by
  have hp : Token.ofSource "a/**/**/[]*]?*".toList =
      .ok [.char 'a', .char '/', .deep, .bracket ⟨[.single ']', .single '*'], false⟩,
        .one, .run] := by cbv
  exact ⟨_, compile_eq_ok hp, rfl, shaped_of_compile (compile_eq_ok hp)⟩

end Pattern
end PathGlob

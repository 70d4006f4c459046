import PathGlob.Pattern.Escape
import PathGlob.Proofs.Pattern.Literal

/-! An escaped text is a pattern for that text.

It reads back character by character, each as one item (`Pattern.row_escape`): a set of one
where the character has a meaning of its own, whatever stands beside it, and the character itself
elsewhere. Sets are also asked about separators and leading dots, but neither is escaped, so the
set of a character takes what the character takes (`Item.standsFor_escaped`). -/
namespace PathGlob

namespace Item

/-- How an escape says one character. -/
def escaped (c : Char) : Item := if Pattern.isMeta c then bracket false [c] else char c

/-- A set of a character that is no mark stands for that character. -/
theorem standsFor_single {d : Char} (hdot : d ≠ '.') (hsep : d ≠ '/') :
    (bracket false [d]).token.StandsFor d := by
  intro o lead c
  have hset : (bracket false [d]).token.covers o lead c =
      (o.allows lead c && Text.same o.caseSensitive c d) := by
    simp [token, spans, Token.covers, Bracket.accepts, Bracket.holds, Span.holds_single]
  rw [hset, Bool.and_eq_right_iff_imp]
  intro hsame
  have hc : c ≠ '.' ∧ c ≠ '/' :=
    ⟨fun hq => hdot ((Text.same_mark (.inl rfl) hsame).1 hq),
      fun hq => hsep ((Text.same_mark (.inr rfl) hsame).1 hq)⟩
  simp [Options.allows, hc]

theorem standsFor_escaped (d : Char) : (escaped d).token.StandsFor d := by
  unfold escaped
  split
  case isTrue hmeta =>
    refine standsFor_single ?_ ?_ <;> rintro rfl <;> cases hmeta
  case isFalse => exact fun _ _ _ => rfl

theorem reads_escaped (before : Option Char) (c : Char) (s : Text) :
    Reads before ((escaped c).text ++ s) (escaped c) s := by
  unfold escaped
  split
  case isTrue hmeta =>
    have hbang : c ≠ '!' := by
      rintro rfl
      cases hmeta
    exact Reads.bracket hbang (List.not_mem_nil : ']' ∉ [])
  case isFalse hmeta =>
    refine .char ?_ ?_ ?_ <;> rintro rfl <;> exact hmeta rfl

end Item

namespace Pattern
variable {o : Options} {p : Pattern} {s text : Text}

theorem escape_eq_texts (text : Text) : escape text = (text.map Item.escaped).flatMap Item.text := by
  rw [List.flatMap_map]
  refine List.flatMap_congr fun c _ => ?_
  rw [Item.escaped]
  split <;> rfl

/-- An escape is read back one character at a time, wherever it stands. -/
theorem row_escape (before : Option Char) (text : Text) :
    Item.Row before (escape text) (text.map Item.escaped) := by
  rw [escape_eq_texts]
  induction text generalizing before with
  | nil => exact .nil
  | cons c text ih => exact .cons (Item.reads_escaped before c _) (ih _)

theorem compile_escape (text : Text) :
    ∃ p, compile (escape text) = .ok p ∧ p.tokens = text.map fun c => (Item.escaped c).token := by
  obtain ⟨p, hp, htokens⟩ := compile_of_row (row_escape none text)
  refine ⟨p, hp, ?_⟩
  rw [htokens, List.map_map, Token.merged_eq_self]
  · rfl
  · intro t ht
    obtain ⟨c, -, rfl⟩ := List.mem_map.1 ht
    exact (Item.standsFor_escaped c).ne_wildcard.2

/-- An escaped text covers the texts of the same characters, in the sense of the options. -/
theorem covers_escape (o : Options) (hp : p.tokens = text.map fun c => (Item.escaped c).token) :
    p.covers o s = true ↔ List.Forall₂ (fun c d => Text.same o.caseSensitive c d = true) s text := by
  have hstands : List.Forall₂ Token.StandsFor p.tokens text := by
    rw [hp, List.forall₂_map_left_iff]
    exact List.forall₂_same.2 fun d _ => Item.standsFor_escaped d
  rw [covers, decide_eq_true_iff, Token.matchFrom_iff_same hstands]

theorem isLiteral_escape (hp : p.tokens = text.map fun c => (Item.escaped c).token) :
    p.isLiteral = true ↔ ∀ c ∈ text, isMeta c = false := by
  simp only [isLiteral, hp, List.all_map, List.all_eq_true, Function.comp_apply, Item.escaped]
  refine forall₂_congr fun c _ => ?_
  cases isMeta c <;> simp [Item.token, Token.isChar]

/-- A text can be told from its escape, as the one text that it covers. -/
theorem escape_injective : Function.Injective escape := by
  intro s t hst
  obtain ⟨p, hp, hs⟩ := compile_escape s
  obtain ⟨q, hq, ht⟩ := compile_escape t
  rw [hst, hq] at hp
  cases hp
  have hself : p.covers {} s = true := by
    rw [covers_escape {} hs]
    exact Text.forall₂_same_sensitive.2 rfl
  rw [covers_escape {} ht] at hself
  exact Text.forall₂_same_sensitive.1 hself

/-- **An escape is exact.** It is a pattern; where case matters it covers the text and nothing
else, elsewhere the texts that agree with it character by character, and the other options have no
part in this. It is plain if the text has nothing to escape, and two texts have two escapes. -/
theorem escape_exact (text : Text) :
    (∃ p, compile (escape text) = .ok p ∧
      (∀ (o : Options) (s : Text), p.covers { o with caseSensitive := true } s = true ↔ s = text) ∧
      (∀ (o : Options) (s : Text), p.covers { o with caseSensitive := false } s = true ↔
        List.Forall₂ (fun c d => Text.same false c d = true) s text) ∧
      (p.isLiteral = true ↔ '?' ∉ text ∧ '*' ∉ text ∧ '[' ∉ text ∧ ']' ∉ text)) ∧
    Function.Injective escape := by
  obtain ⟨p, hp, htokens⟩ := compile_escape text
  refine ⟨⟨p, hp, fun o s => ?_, fun o s => covers_escape _ htokens, ?_⟩, escape_injective⟩
  · rw [covers_escape _ htokens, Text.forall₂_same_sensitive]
  · rw [isLiteral_escape htokens]
    have hmeta : ∀ c, isMeta c = false ↔ c ≠ '?' ∧ c ≠ '*' ∧ c ≠ '[' ∧ c ≠ ']' := by simp [isMeta]
    simp only [hmeta, imp_and, forall_and]
    simp [List.forall_mem_ne']

end Pattern
end PathGlob

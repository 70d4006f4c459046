import Mathlib.Data.List.Forall2
import PathGlob.Proofs.Pattern.Components
import PathGlob.Proofs.Pattern.Matching

/-! Plain patterns stand for their own source.

A pattern without wildcards has one token for each character of its source, and each token
stands for its character (`Token.StandsFor`). Such tokens cover the texts of the same characters
(`Token.matchFrom_iff_same`), so the pattern covers its source, and where case matters no other
text (`Pattern.eq_source_of_covers`). -/
namespace PathGlob

theorem Item.Row.tokens_of_chars {before : Option Char} {s : Text} {items : List Item}
    (h : Row before s items) (hc : ∀ item ∈ items, item.token.isChar = true) :
    items.map Item.token = s.map Token.char := by
  induction h with
  | nil => rfl
  | cons hi _ ih =>
    obtain ⟨hchar, hmore⟩ := List.forall_mem_cons.1 hc
    cases hi with
    | char => exact congrArg _ (ih hmore)
    | _ => cases hchar

namespace Token
variable {o : Options} {t : Token} {ts : List Token} {lead : Bool} {d : Char} {s text : Text}

/-- The token covers what is the same character as `d`, with or without regard to case. -/
def StandsFor (t : Token) (d : Char) : Prop :=
  ∀ o lead c, t.covers o lead c = Text.same o.caseSensitive c d

theorem StandsFor.ne_wildcard (h : t.StandsFor d) : t ≠ run ∧ t ≠ deep := by
  have hd : t.covers {} true d = true := (h {} true d).trans (Text.same_self true d)
  constructor
  · rintro rfl
    cases hd
  · rintro rfl
    cases hd

/-- Tokens that stand for characters cover the texts of the same characters in order. -/
theorem matchFrom_iff_same (h : List.Forall₂ StandsFor ts text) :
    matchFrom o ts lead s = .matched ↔
      List.Forall₂ (fun c d => Text.same o.caseSensitive c d = true) s text := by
  induction h generalizing lead s with
  | nil => cases s <;> simp [matchFrom]
  | @cons t d ts text ht _ ih =>
    obtain ⟨hr, hd⟩ := ht.ne_wildcard
    cases s with
    | nil => simp [matchFrom_nil hr hd]
    | cons c s =>
      rw [matchFrom_cons hr hd, ht o lead c, List.forall₂_cons]
      split
      case isTrue hsame => exact ih.trans (and_iff_right hsame).symm
      case isFalse hsame => exact iff_of_false nofun fun hq => hsame hq.1

theorem standsFor_chars (text : Text) : List.Forall₂ StandsFor (text.map Token.char) text :=
  List.forall₂_map_left_iff.2 (List.forall₂_same.2 fun _ _ _ _ _ => rfl)

end Token

theorem Text.forall₂_same_sensitive {s t : Text} :
    List.Forall₂ (fun c d => same true c d = true) s t ↔ s = t := by
  simp only [same_sensitive, List.forall₂_eq_eq_eq]

namespace Pattern
variable {o : Options} {c : Pattern} {n : Text}

theorem tokens_of_literal (hc : c.isLiteral = true) : c.tokens = c.source.map Token.char := by
  obtain ⟨items, hrow, htokens⟩ := c.exists_row
  have hchars : ∀ item ∈ items, item.token.isChar = true := by
    intro item hi
    apply List.all_eq_true.1 hc
    rw [← htokens, Token.mem_merged]
    exact List.mem_map_of_mem hi
  rw [← htokens, hrow.tokens_of_chars hchars, Token.merged_eq_self]
  intro t ht
  obtain ⟨_, _, rfl⟩ := List.mem_map.1 ht
  exact nofun

/-- A plain pattern covers its source. -/
theorem covers_source (o : Options) (hc : c.isLiteral = true) : c.covers o c.source = true := by
  rw [covers, decide_eq_true_iff, tokens_of_literal hc,
    Token.matchFrom_iff_same (Token.standsFor_chars c.source)]
  exact List.forall₂_same.2 fun d _ => Text.same_self o.caseSensitive d

/-- Where case matters, a plain pattern covers its source only. -/
theorem eq_source_of_covers (hcase : o.caseSensitive = true) (hc : c.isLiteral = true)
    (h : c.covers o n = true) : n = c.source := by
  rw [covers, decide_eq_true_iff, tokens_of_literal hc,
    Token.matchFrom_iff_same (Token.standsFor_chars c.source), hcase] at h
  exact Text.forall₂_same_sensitive.1 h

end Pattern
end PathGlob

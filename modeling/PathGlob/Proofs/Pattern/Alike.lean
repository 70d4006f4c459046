import PathGlob.Proofs.Pattern.Recased

/-! Matching without regard to case tells no two cases of a letter apart.

Neither side of a comparison of two characters does (`Text.same_alike`), so no character of a
pattern and no single member of a set does. An interval does if it takes a letter for its place
and not as a letter, as the one from `Z` to `a` takes `Z` but not `z`; one between two letters of
the same case or without a letter is fair (`Span.IsFair`). Patterns and texts that are alike in
this sense are matched alike, attempt by attempt (`Token.matchFrom_alike`). -/
namespace PathGlob

namespace Text
variable {a b c d m : Char}

theorem Recased.beq_eq (h : Recased a b) (hm : isAsciiLetter m = false) : (a == m) = (b == m) := by
  rw [Bool.eq_iff_iff, beq_iff_eq, beq_iff_eq, h.eq_iff hm]

theorem same_alike (hab : Recased a b) (hcd : Recased c d) : same false c a = same false d b := by
  rw [same_recased hab, Bool.eq_iff_iff, same_insensitive, same_insensitive, hcd.fold_eq]

/-! ### Letters by their numbers -/

theorem le_iff : a ≤ b ↔ a.toNat ≤ b.toNat := by
  simp [Char.le_def, UInt32.le_iff_toNat_le, ← Char.toNat_val]

theorem toNat_toLower (c : Char) :
    c.toLower.toNat = if c.isUpper then c.toNat + 32 else c.toNat := by
  by_cases h : c.isUpper = true
  · have hup := isUpper_iff.1 h
    have hval : c.val ≥ 'A'.val ∧ c.val ≤ 'Z'.val := by
      simpa [UInt32.le_iff_toNat_le, ← Char.toNat_val] using hup
    have hlower : c.toLower = ⟨c.val + 32, _⟩ := dif_pos hval
    have hsum : (c.val + 32).toNat = c.val.toNat + 32 := by
      rw [UInt32.toNat_add]
      exact Nat.mod_eq_of_lt (Nat.lt_of_le_of_lt (Nat.add_le_add_right hup.2 32) (by decide))
    rw [if_pos h, hlower]
    exact hsum
  · have hval : ¬(c.val ≥ 'A'.val ∧ c.val ≤ 'Z'.val) := by
      intro hq
      exact h (isUpper_iff.2 (by simpa [UInt32.le_iff_toNat_le, ← Char.toNat_val] using hq))
    have hlower : c.toLower = c := dif_neg hval
    rw [if_neg h, hlower]

/-- Between two letters of the same case stand the letters between them, of that case. -/
theorem toLower_between
    (hends : a.isLower = true ∧ b.isLower = true ∨ a.isUpper = true ∧ b.isUpper = true)
    (h : a ≤ c ∧ c ≤ b) : a.toLower ≤ c.toLower ∧ c.toLower ≤ b.toLower := by
  simp only [le_iff, isLower_iff, isUpper_iff, toNat_toLower] at *
  split <;> split <;> split <;> omega

end Text

namespace Span
variable {o : Options} {s : Span} {c d : Char}

/-- An interval between two letters of the same case, or without a letter. -/
def IsFair (s : Span) : Prop :=
  s.low.isLower = true ∧ s.high.isLower = true ∨ s.low.isUpper = true ∧ s.high.isUpper = true ∨
    ∀ c, Text.isAsciiLetter c = true → ¬(s.low ≤ c ∧ c ≤ s.high)

/-- The same span, but for the case of a single character; an interval is a fair one. -/
inductive Alike : Span → Span → Prop where
  | single {a b : Char} : Text.Recased a b → Alike (Span.single a) (Span.single b)
  | interval {s : Span} : s.IsFair → Alike s s

/-- A fair interval takes a letter as a letter, whatever its case. -/
theorem IsFair.holds_letter (hs : s.IsFair) (hne : s.low ≠ s.high) (hc : Text.isAsciiLetter c = true) :
    s.holds false c = (Text.isAsciiLetter s.low && Text.isAsciiLetter s.high &&
      s.low.toLower ≤ c.toLower && c.toLower ≤ s.high.toLower) := by
  have hplace : s.low ≤ c ∧ c ≤ s.high → Text.isAsciiLetter s.low = true ∧
      Text.isAsciiLetter s.high = true ∧ s.low.toLower ≤ c.toLower ∧ c.toLower ≤ s.high.toLower := by
    intro h
    rcases hs with ⟨hlow, hhigh⟩ | ⟨hlow, hhigh⟩ | hnone
    · exact ⟨Text.isAsciiLetter_iff.2 (.inr hlow), Text.isAsciiLetter_iff.2 (.inr hhigh),
        Text.toLower_between (.inl ⟨hlow, hhigh⟩) h⟩
    · exact ⟨Text.isAsciiLetter_iff.2 (.inl hlow), Text.isAsciiLetter_iff.2 (.inl hhigh),
        Text.toLower_between (.inr ⟨hlow, hhigh⟩) h⟩
    · exact absurd h (hnone c hc)
  rw [Bool.eq_iff_iff, holds, if_neg hne]
  simp only [Bool.or_eq_true, Bool.and_eq_true, decide_eq_true_eq, Bool.not_false, true_and,
    Text.isAscii_of_letter hc, and_assoc]
  exact or_iff_right_of_imp hplace

theorem Alike.holds_eq {s' : Span} (hs : Alike s s') (hcd : Text.Recased c d) :
    s.holds false c = s'.holds false d := by
  cases hs with
  | single hab =>
    rw [holds_single, holds_single]
    exact Text.same_alike hab hcd
  | interval hfair =>
    by_cases hone : s.low = s.high
    · rw [holds, holds, if_pos hone, if_pos hone]
      exact Text.same_alike (.inl rfl) hcd
    · rcases hcd with rfl | ⟨hc, hd, hlower⟩
      · rfl
      · rw [hfair.holds_letter hone hc, hfair.holds_letter hone hd, hlower]

end Span

theorem Options.allows_alike {o : Options} {lead : Bool} {c d : Char} (hcd : Text.Recased c d) :
    o.allows lead c = o.allows lead d := by
  rw [allows, allows, hcd.beq_eq (by decide), hcd.beq_eq (by decide)]

namespace Token
variable {o : Options} {t u : Token} {ts us : List Token} {c d : Char}

/-- The same token, but for the case of characters that stand alone; the intervals are fair. -/
inductive Alike : Token → Token → Prop where
  | char {a b : Char} : Text.Recased a b → Alike (char a) (char b)
  | one : Alike one one
  | run : Alike run run
  | deep : Alike deep deep
  | bracket {spans spans' : List Span} {negated : Bool} :
    List.Forall₂ Span.Alike spans spans' → Alike (bracket ⟨spans, negated⟩) (bracket ⟨spans', negated⟩)

theorem Alike.covers_eq (htu : Alike t u) (hcase : o.caseSensitive = false) (hcd : Text.Recased c d)
    (lead : Bool) : t.covers o lead c = u.covers o lead d := by
  cases htu with
  | char hab =>
    rw [covers, covers, hcase]
    exact Text.same_alike hab hcd
  | one => exact Options.allows_alike hcd
  | run => rfl
  | deep => rfl
  | @bracket spans spans' negated hspans =>
    have hholds := congrArg (List.any · id)
      (map_eq_of_forall₂ hspans fun _ _ hs => hs.holds_eq hcd)
    simp only [List.any_map, Function.id_comp] at hholds
    rw [covers, covers, Options.allows_alike hcd, hcase, Bracket.accepts, Bracket.accepts,
      Bracket.holds, Bracket.holds, hholds]

theorem Alike.agree (htu : Alike t u) (hcase : o.caseSensitive = false) :
    Agree o Text.Recased t u where
  run := by cases htu <;> simp
  deep := by cases htu <;> simp
  covers := fun lead _ _ hcd => htu.covers_eq hcase hcd lead

/-- Every attempt ends in the same way. -/
theorem matchFrom_alike (hcase : o.caseSensitive = false) (hts : List.Forall₂ Alike ts us)
    (lead : Bool) {s t : Text} (hst : List.Forall₂ Text.Recased s t) :
    matchFrom o ts lead s = matchFrom o us lead t := by
  have hagree : List.Forall₂ (Agree o Text.Recased) ts us := hts.imp fun _ _ htu => htu.agree hcase
  refine matchFrom_agree (fun c d m hcd hm => hcd.beq_eq ?_) hagree lead s t hst
  rcases hm with rfl | rfl <;> decide

end Token

namespace Pattern
variable {o : Options} {p q : Pattern} {s t : Text}

/-- **Without regard to case, matching does not depend on the case of letters**, of the pattern or
of the text. -/
theorem covers_alike (hcase : o.caseSensitive = false)
    (hpq : List.Forall₂ Token.Alike p.tokens q.tokens) (hst : List.Forall₂ Text.Recased s t) :
    p.covers o s = q.covers o t := by
  rw [covers, covers, Token.matchFrom_alike hcase hpq true hst]

/-- The Kelvin sign is a letter `k` to a set that holds one in either case. -/
theorem covers_alike_kelvin :
    ∃ p q : Pattern, compile "[a-ck]x".toList = .ok p ∧ compile "[a-cK]X".toList = .ok q ∧
      List.Forall₂ Token.Alike p.tokens q.tokens ∧
      List.Forall₂ Text.Recased ['\u212A', 'X'] ['\u212A', 'x'] ∧
      p.covers { caseSensitive := false } ['\u212A', 'X'] = true ∧
      q.covers { caseSensitive := false } ['\u212A', 'x'] = true := by
  have hp : Token.ofSource "[a-ck]x".toList =
      .ok [.bracket ⟨[⟨'a', 'c'⟩, .single 'k'], false⟩, .char 'x'] := by cbv
  have hq : Token.ofSource "[a-cK]X".toList =
      .ok [.bracket ⟨[⟨'a', 'c'⟩, .single 'K'], false⟩, .char 'X'] := by cbv
  have hset : List.Forall₂ Span.Alike [⟨'a', 'c'⟩, .single 'k'] [⟨'a', 'c'⟩, .single 'K'] :=
    .cons (.interval (.inl ⟨rfl, rfl⟩)) (.cons (.single (.inr ⟨rfl, rfl, rfl⟩)) .nil)
  have halike : List.Forall₂ Token.Alike
      [.bracket ⟨[⟨'a', 'c'⟩, .single 'k'], false⟩, .char 'x']
      [.bracket ⟨[⟨'a', 'c'⟩, .single 'K'], false⟩, .char 'X'] :=
    .cons (.bracket hset) (.cons (.char (.inr ⟨rfl, rfl, rfl⟩)) .nil)
  have htext : List.Forall₂ Text.Recased ['\u212A', 'X'] ['\u212A', 'x'] :=
    .cons (.inl rfl) (.cons (.inr ⟨rfl, rfl, rfl⟩) .nil)
  have hcovers : covers { caseSensitive := false } ⟨_, _, hp⟩ ['\u212A', 'X'] = true := rfl
  have hsame := covers_alike (o := { caseSensitive := false }) (p := ⟨_, _, hp⟩) (q := ⟨_, _, hq⟩)
    rfl halike htext
  exact ⟨⟨_, _, hp⟩, ⟨_, _, hq⟩, compile_eq_ok hp, compile_eq_ok hq, halike, htext, hcovers,
    hsame ▸ hcovers⟩

/-- The interval from `Z` to `a` is not fair: the other case of its first letter is not in it. -/
example : (Span.mk 'Z' 'a').holds false 'Z' = true ∧ (Span.mk 'Z' 'a').holds false 'z' = false := by
  decide

end Pattern
end PathGlob

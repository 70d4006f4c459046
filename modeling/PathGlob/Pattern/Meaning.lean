import PathGlob.Pattern.Basic

/-! What a pattern covers, said without an order of attempts.

The text falls into one stretch for each token: one character for a character, `?` or
a set (`CoversChar`), any stretch for `*`, and for `**` a stretch of whole components. No
wildcard takes a character that the options reserve for the pattern. -/
namespace PathGlob.Token

/-- Whether a name starts behind the stretch `u`, when one starts before it iff `lead`. -/
def leads (lead : Bool) (u : Text) : Bool :=
  match u.getLast? with
  | none => lead
  | some c => c == '/'

/-- No dot of `u` starts a name. -/
def noLeadingDot (lead : Bool) : Text → Bool
  | [] => true
  | c :: u => !(lead && c == '.') && noLeadingDot (c == '/') u

/-- The stretches of `*`. -/
def IsRun (o : Options) (lead : Bool) (u : Text) : Prop :=
  (o.literalSeparator = true → '/' ∉ u) ∧ (o.literalLeadingDot = true → noLeadingDot lead u = true)

/-- The stretches of `**` before `s`: none, up to a separator, or all that is left. -/
def IsDeep (o : Options) (lead : Bool) (u s : Text) : Prop :=
  (u = [] ∨ u.getLast? = some '/' ∨ s = []) ∧
    (o.literalLeadingDot = true → noLeadingDot lead u = true)

/-- A wildcard may stand for `c`, at the start of a name if `lead`. -/
structure Unreserved (o : Options) (lead : Bool) (c : Char) : Prop where
  ne_separator : o.literalSeparator = true → c ≠ '/'
  ne_dot : o.literalLeadingDot = true → lead = true → c ≠ '.'

/-- The tokens that stand for one character, and the characters that they stand for. -/
inductive CoversChar (o : Options) (lead : Bool) (c : Char) : Token → Prop where
  | char {d : Char} : Text.same o.caseSensitive c d = true → CoversChar o lead c (char d)
  | one : Unreserved o lead c → CoversChar o lead c one
  | within {spans : List Span} {s : Span} :
    Unreserved o lead c → s ∈ spans → s.holds o.caseSensitive c = true →
      CoversChar o lead c (bracket ⟨spans, false⟩)
  | except {spans : List Span} :
    Unreserved o lead c → (∀ s ∈ spans, s.holds o.caseSensitive c = false) →
      CoversChar o lead c (bracket ⟨spans, true⟩)

inductive Covers (o : Options) : List Token → Bool → Text → Prop where
  | nil {lead : Bool} : Covers o [] lead []
  | cons {t : Token} {ts : List Token} {lead : Bool} {c : Char} {s : Text} :
    CoversChar o lead c t → Covers o ts (c == '/') s → Covers o (t :: ts) lead (c :: s)
  | run {ts : List Token} {lead : Bool} {u s : Text} :
    IsRun o lead u → Covers o ts (leads lead u) s → Covers o (run :: ts) lead (u ++ s)
  | deep {ts : List Token} {lead : Bool} {u s : Text} :
    IsDeep o lead u s → Covers o ts (leads lead u) s → Covers o (deep :: ts) lead (u ++ s)

/-! ### One character -/

variable {o : Options} {lead : Bool} {c : Char}

theorem allows_iff : o.allows lead c = true ↔ Unreserved o lead c := by
  simp only [Options.allows, Bool.and_eq_true, Bool.not_eq_true', ← Bool.not_eq_true, beq_iff_eq,
    not_and]
  constructor
  · rintro ⟨hseparator, hdot⟩
    exact ⟨hseparator, fun ho hlead => hdot ⟨hlead, ho⟩⟩
  · rintro ⟨hseparator, hdot⟩
    exact ⟨hseparator, fun hboth => hdot hboth.2 hboth.1⟩

/-- The matcher tests a character as the relation has it. -/
theorem covers_iff {t : Token} : t.covers o lead c = true ↔ CoversChar o lead c t := by
  constructor
  · intro h
    cases t with
    | char d => exact .char h
    | one => exact .one (allows_iff.1 h)
    | run | deep => cases h
    | bracket b =>
      obtain ⟨spans, negated⟩ := b
      simp only [covers, Bool.and_eq_true, Bracket.accepts, bne_iff_ne] at h
      cases negated with
      | false =>
        obtain ⟨s, hs, hholds⟩ := List.any_eq_true.1 (eq_true_of_ne_false h.2)
        exact .within (allows_iff.1 h.1) hs hholds
      | true =>
        have hnone := List.any_eq_false.1 (eq_false_of_ne_true h.2)
        exact .except (allows_iff.1 h.1) fun s hs => eq_false_of_ne_true (hnone s hs)
  · intro h
    cases h with
    | char h => exact h
    | one h => exact allows_iff.2 h
    | within hfree hs hholds =>
      have hany : Bracket.holds o.caseSensitive c ⟨_, false⟩ = true :=
        List.any_eq_true.2 ⟨_, hs, hholds⟩
      simp [covers, Bracket.accepts, allows_iff.2 hfree, hany]
    | except hfree hnone =>
      have hany : Bracket.holds o.caseSensitive c ⟨_, true⟩ = false :=
        List.any_eq_false.2 fun s hs => Bool.eq_false_iff.1 (hnone s hs)
      simp [covers, Bracket.accepts, allows_iff.2 hfree, hany]

end PathGlob.Token

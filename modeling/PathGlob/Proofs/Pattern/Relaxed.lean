import Mathlib
import PathGlob.Proofs.Pattern.Matching

/-! Options that reserve less for the pattern lose no match.

Each switch of the options is asked about one character or one stretch at a time, so it is enough
to look at these: what a token or a wildcard takes under some options it takes under any that
relax them (`Token.covers_relaxed`, `Token.IsRun.relaxed`, `Token.IsDeep.relaxed`). A negated set
is the one token that takes less where case does not matter, so a pattern that is also to match
without regard to case must have none (`Pattern.Affirms`). -/
namespace PathGlob

/-- The options `o'` have no switch on that `o` has off. -/
structure Options.Relaxes (o' o : Options) : Prop where
  caseSensitive : o'.caseSensitive = true → o.caseSensitive = true
  literalSeparator : o'.literalSeparator = true → o.literalSeparator = true
  literalLeadingDot : o'.literalLeadingDot = true → o.literalLeadingDot = true

variable {o o' : Options} {cs cs' lead : Bool} {c d : Char}

theorem Text.same_relaxed (hcase : cs' = true → cs = true) (h : same cs c d = true) :
    same cs' c d = true := by
  cases cs' with
  | true => rwa [hcase rfl] at h
  | false =>
    cases cs with
    | true => rw [(same_sensitive c d).1 h, same_self]
    | false => exact h

theorem Span.holds_relaxed {s : Span} (hcase : cs' = true → cs = true) (h : s.holds cs c = true) :
    s.holds cs' c = true := by
  unfold holds at h ⊢
  split at h
  · rename_i hs
    rw [if_pos hs]
    exact Text.same_relaxed hcase h
  · rename_i hs
    rw [if_neg hs]
    cases cs' with
    | true => rwa [hcase rfl] at h
    | false =>
      cases cs with
      | true => exact Bool.or_eq_true_iff.2 (.inl (by simpa using h))
      | false => exact h

namespace Token
variable {t : Token} {ts : List Token} {u s : Text}

/-- A set of the characters that are not in it. -/
def isNegated : Token → Bool
  | bracket b => b.negated
  | _ => false

theorem Unreserved.relaxed (h : o'.Relaxes o) (hc : Unreserved o lead c) : Unreserved o' lead c :=
  ⟨fun ho => hc.ne_separator (h.literalSeparator ho), fun ho => hc.ne_dot (h.literalLeadingDot ho)⟩

theorem CoversChar.relaxed (h : o'.Relaxes o)
    (hcase : o'.caseSensitive = o.caseSensitive ∨ t.isNegated = false)
    (hc : CoversChar o lead c t) : CoversChar o' lead c t := by
  cases hc with
  | char hd => exact .char (Text.same_relaxed h.caseSensitive hd)
  | one hfree => exact .one (hfree.relaxed h)
  | within hfree hs hholds =>
    exact .within (hfree.relaxed h) hs (Span.holds_relaxed h.caseSensitive hholds)
  | except hfree hnone =>
    have hsame : o'.caseSensitive = o.caseSensitive := hcase.resolve_right nofun
    exact .except (hfree.relaxed h) (hsame ▸ hnone)

theorem IsRun.relaxed (h : o'.Relaxes o) (hu : IsRun o lead u) : IsRun o' lead u :=
  ⟨fun hs => hu.1 (h.literalSeparator hs), fun hd => hu.2 (h.literalLeadingDot hd)⟩

theorem IsDeep.relaxed (h : o'.Relaxes o) (hu : IsDeep o lead u s) : IsDeep o' lead u s :=
  ⟨hu.1, fun hd => hu.2 (h.literalLeadingDot hd)⟩

/-- The stretches under the stricter options are stretches under the others. -/
theorem Covers.relaxed (h : o'.Relaxes o)
    (hcase : ∀ t ∈ ts, o'.caseSensitive = o.caseSensitive ∨ t.isNegated = false)
    (hc : Covers o ts lead s) : Covers o' ts lead s := by
  induction hc with
  | nil => exact .nil
  | cons ht _ ih =>
    obtain ⟨hhead, hrest⟩ := List.forall_mem_cons.1 hcase
    exact .cons (ht.relaxed h hhead) (ih hrest)
  | run hu _ ih => exact .run (hu.relaxed h) (ih (List.forall_mem_cons.1 hcase).2)
  | deep hu _ ih => exact .deep (hu.relaxed h) (ih (List.forall_mem_cons.1 hcase).2)

end Token

namespace Pattern
variable {p : Pattern} {text : Text}

/-- No set of the pattern is negated. -/
def Affirms (p : Pattern) : Prop := ∀ t ∈ p.tokens, t.isNegated = false

instance (p : Pattern) : Decidable p.Affirms := List.decidableBAll _ _

/-- **Relaxing the options loses no match.** Separators and leading dots may be given to the
wildcards of any pattern; case may be let go where no set is negated. -/
theorem covers_mono (h : o'.Relaxes o) (hcase : o'.caseSensitive = o.caseSensitive ∨ p.Affirms)
    (hc : p.covers o text = true) : p.covers o' text = true := by
  rw [covers, decide_eq_true_iff, Token.matchFrom_eq_matched (Token.placed_tokens p)] at hc ⊢
  exact hc.relaxed h fun t ht => hcase.imp_right fun hp => hp t ht

theorem covers_mono_interval :
    ∃ p : Pattern, compile "x/[a-c]*".toList = .ok p ∧
      ({ caseSensitive := false } : Options).Relaxes ⟨true, true, true⟩ ∧ p.Affirms ∧
      p.covers ⟨true, true, true⟩ "x/b.d".toList = true ∧
      p.covers { caseSensitive := false } "x/b.d".toList = true := by
  have htokens : Token.ofSource "x/[a-c]*".toList =
      .ok [.char 'x', .char '/', .bracket ⟨[⟨'a', 'c'⟩], false⟩, .run] := by cbv
  have haffirms : Affirms ⟨_, _, htokens⟩ := of_decide_eq_true rfl
  have hstrict : covers ⟨true, true, true⟩ ⟨_, _, htokens⟩ "x/b.d".toList = true := rfl
  have hrelaxes : ({ caseSensitive := false } : Options).Relaxes ⟨true, true, true⟩ :=
    ⟨fun _ => rfl, fun _ => rfl, fun _ => rfl⟩
  exact ⟨⟨_, _, htokens⟩, compile_eq_ok htokens, hrelaxes, haffirms, hstrict,
    covers_mono hrelaxes (.inr haffirms) hstrict⟩

/-- A negated set takes a letter that is there in the other case only as long as case matters. -/
example : (Token.bracket ⟨[.single 'a'], true⟩).covers {} true 'A' = true ∧
    (Token.bracket ⟨[.single 'a'], true⟩).covers { caseSensitive := false } true 'A' = false := by
  decide

end Pattern
end PathGlob

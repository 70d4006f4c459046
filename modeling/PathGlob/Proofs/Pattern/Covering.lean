import PathGlob.Proofs.Pattern.Matching

/-! What rows of tokens cover together.

Tokens without `**` cover their text whatever follows it (`covers_append`), and where
wildcards leave separators alone they cover no separator but their own
(`not_mem_of_covers`). A row of `**` covers what one of them does (`covers_merged`). -/
namespace PathGlob.Token
variable {o : Options} {ts ts' : List Token} {lead : Bool} {s u v : Text}

theorem noLeadingDot_append (lead : Bool) (u v : Text) :
    noLeadingDot lead (u ++ v) = (noLeadingDot lead u && noLeadingDot (leads lead u) v) := by
  induction u generalizing lead with
  | nil => rfl
  | cons c u ih => rw [List.cons_append, noLeadingDot, noLeadingDot, ih, leads_cons, Bool.and_assoc]

theorem noLeadingDot_of_inner (h : '/' ∉ u) : noLeadingDot false u = true := by
  induction u with
  | nil => rfl
  | cons c u ih =>
    simp only [List.mem_cons, not_or] at h
    rw [noLeadingDot, beq_false_of_ne (Ne.symm h.1), ih h.2]
    rfl

theorem covers_nil_iff : Covers o [] lead s ↔ s = [] := by
  constructor
  · intro h
    cases h
    rfl
  · intro hq
    subst hq
    exact .nil

/-- Tokens without `**` are not about what follows their text. -/
theorem covers_append (h : ∀ t ∈ ts, t ≠ deep) :
    Covers o (ts ++ ts') lead s ↔
      ∃ u v, s = u ++ v ∧ Covers o ts lead u ∧ Covers o ts' (leads lead u) v := by
  induction ts generalizing lead s with
  | nil =>
    constructor
    · exact fun hs => ⟨[], s, rfl, .nil, hs⟩
    · intro hq
      obtain ⟨u, v, rfl, hu, hv⟩ := hq
      obtain rfl := covers_nil_iff.1 hu
      exact hv
  | cons t ts ih =>
    obtain ⟨ht, hts⟩ := List.forall_mem_cons.1 h
    constructor
    · intro hs
      cases hs with
      | @cons _ _ _ c s hc hs =>
        obtain ⟨u, v, rfl, hu, hv⟩ := (ih hts).1 hs
        exact ⟨c :: u, v, rfl, .cons hc hu, by rwa [leads_cons]⟩
      | @run _ _ w s hw hs =>
        obtain ⟨u, v, rfl, hu, hv⟩ := (ih hts).1 hs
        exact ⟨w ++ u, v, (List.append_assoc ..).symm, .run hw hu, by rwa [leads_append]⟩
      | deep => exact absurd rfl ht
    · intro hq
      obtain ⟨u, v, rfl, hu, hv⟩ := hq
      cases hu with
      | @cons _ _ _ c u hc hu =>
        rw [leads_cons] at hv
        exact .cons hc ((ih hts).2 ⟨u, v, rfl, hu, hv⟩)
      | @run _ _ w u hw hu =>
        rw [leads_append] at hv
        rw [List.append_assoc]
        exact .run hw ((ih hts).2 ⟨u, v, rfl, hu, hv⟩)
      | deep => exact absurd rfl ht

theorem covers_separator_iff :
    Covers o (char '/' :: ts) lead s ↔ ∃ r, s = '/' :: r ∧ Covers o ts true r := by
  rw [covers_cons_iff (by simp) (by simp)]
  constructor
  · intro h
    obtain ⟨c, r, rfl, hc, hr⟩ := h
    obtain rfl := (Text.same_separator hc).2 rfl
    exact ⟨r, rfl, hr⟩
  · intro h
    obtain ⟨r, rfl, hr⟩ := h
    exact ⟨'/', r, rfl, Text.same_self _ _, hr⟩

theorem not_separator_of_covers {t : Token} {c : Char} (hsep : o.literalSeparator = true)
    (ht : t ≠ char '/') (h : t.covers o lead c = true) : c ≠ '/' := by
  intro hq
  subst hq
  cases t with
  | char d =>
    have hd : d = '/' := (Text.same_separator h).1 rfl
    exact ht (by rw [hd])
  | one => simp [covers, Options.allows, hsep] at h
  | bracket b => simp [covers, Options.allows, hsep] at h
  | run => cases h
  | deep => cases h

theorem not_mem_of_covers (hsep : o.literalSeparator = true)
    (h : ∀ t ∈ ts, t ≠ deep ∧ t ≠ char '/') (hs : Covers o ts lead s) : '/' ∉ s := by
  induction hs with
  | nil => exact List.not_mem_nil
  | cons hc _ ih =>
    obtain ⟨ht, hts⟩ := List.forall_mem_cons.1 h
    have hne := not_separator_of_covers hsep ht.2 (covers_iff.2 hc)
    simp [Ne.symm hne, ih hts]
  | run hr _ ih =>
    have hu := hr.1 hsep
    simp [hu, ih (List.forall_mem_cons.1 h).2]
  | deep => exact absurd rfl (h _ (List.mem_cons_self ..)).1

/-! ### Rows of `deep` -/

theorem covers_deep_deep_iff :
    Covers o (deep :: deep :: ts) lead s ↔ Covers o (deep :: ts) lead s := by
  constructor
  · intro h
    cases h with
    | cons hc _ => cases hc
    | @deep _ _ u s hu hs =>
      cases hs with
      | cons hc _ => cases hc
      | @deep _ _ v w hv hw =>
        rw [← leads_append] at hw
        rw [← List.append_assoc]
        refine .deep ⟨?_, fun hd => ?_⟩ hw
        · rcases hv.1 with rfl | hv | rfl
          · simpa using hu.1
          · exact .inr (.inl (by simp [List.getLast?_append, hv]))
          · exact .inr (.inr rfl)
        · rw [noLeadingDot_append, hu.2 hd, hv.2 hd]
          rfl
  · intro h
    have hempty : IsDeep o lead [] s := ⟨.inl rfl, fun _ => rfl⟩
    exact .deep (u := []) hempty h

theorem covers_congr {t : Token} (h : ∀ lead s, Covers o ts lead s ↔ Covers o ts' lead s) :
    Covers o (t :: ts) lead s ↔ Covers o (t :: ts') lead s := by
  have hstep : ∀ {ts ts' : List Token}, (∀ lead s, Covers o ts lead s → Covers o ts' lead s) →
      Covers o (t :: ts) lead s → Covers o (t :: ts') lead s := by
    intro ts ts' himp hs
    cases hs with
    | cons hc hs => exact .cons hc (himp _ _ hs)
    | run hu hs => exact .run hu (himp _ _ hs)
    | deep hu hs => exact .deep hu (himp _ _ hs)
  exact ⟨hstep fun lead s => (h lead s).1, hstep fun lead s => (h lead s).2⟩

theorem covers_merged (ts : List Token) (lead : Bool) (s : Text) :
    Covers o (merged ts) lead s ↔ Covers o ts lead s := by
  induction ts generalizing lead s with
  | nil => exact Iff.rfl
  | cons t ts ih =>
    rcases merged_cases t ts with ⟨us, rfl, rfl, hm⟩ | ⟨-, hm⟩
    · rw [hm, ih]
      exact covers_deep_deep_iff.symm
    · rw [hm]
      exact covers_congr ih

end PathGlob.Token

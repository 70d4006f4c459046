import Mathlib.Data.List.Basic
import PathGlob.Pattern.Match
import PathGlob.Pattern.Meaning
import PathGlob.Proofs.Pattern.Shape

/-! Backtracking decides what a pattern covers.

An attempt that ends `stuck` has failed where it started. One that ends `exhausted`
has failed there and at every later place of the text, which is why no wildcard before
it tries again. For a row of tokens that starts with `**` this is so only of later
places where a name starts, and only such places are asked for, since `**` stands
behind a separator. `Decides` says all three, `decides_matchFrom` proves it by
recursion on the tokens, and `covers_iff_covers` is what it comes to for a pattern;
`ne_matched_of_exhausted` is what it says of positions in a text. -/
namespace PathGlob.Token
variable (o : Options)

/-! ### Stretches -/

@[simp] theorem leads_nil (lead : Bool) : leads lead [] = lead := rfl

theorem leads_cons (lead : Bool) (c : Char) (u : Text) : leads lead (c :: u) = leads (c == '/') u := by
  cases u with
  | nil => rfl
  | cons d u => simp [leads, List.getLast?_cons]

theorem leads_append (lead : Bool) (u v : Text) : leads lead (u ++ v) = leads (leads lead u) v := by
  induction u generalizing lead with
  | nil => rfl
  | cons c u ih => rw [List.cons_append, leads_cons, leads_cons, ih]

theorem leads_true {u : Text} (h : leads true u = true) : u = [] ∨ u.getLast? = some '/' := by
  cases hl : u.getLast? with
  | none => exact .inl (List.getLast?_eq_none_iff.1 hl)
  | some c =>
    rw [leads, hl] at h
    exact .inr (by rw [beq_iff_eq.1 h])

/-- Where a stretch may end: of `**` at its start, behind a separator or with the text. -/
def Ends (isDeep : Bool) (u s : Text) : Prop :=
  isDeep = true → u = [] ∨ u.getLast? = some '/' ∨ s = []

/-- The stretches of a wildcard before `s`. -/
structure Stretch (isDeep : Bool) (lead : Bool) (u s : Text) : Prop where
  ends : Ends isDeep u s
  separator : isDeep = false → o.literalSeparator = true → '/' ∉ u
  dot : o.literalLeadingDot = true → noLeadingDot lead u = true

theorem isRun_iff {lead : Bool} {u s : Text} : IsRun o lead u ↔ Stretch o false lead u s :=
  ⟨fun h => ⟨fun hd => (by cases hd), fun _ => h.1, h.2⟩, fun h => ⟨h.separator rfl, h.dot⟩⟩

theorem isDeep_iff {lead : Bool} {u s : Text} : IsDeep o lead u s ↔ Stretch o true lead u s :=
  ⟨fun h => ⟨fun _ => h.1, fun hd => (by cases hd), h.2⟩, fun h => ⟨h.ends rfl, h.dot⟩⟩

theorem Stretch.nil (isDeep lead : Bool) (s : Text) : Stretch o isDeep lead [] s :=
  ⟨fun _ => .inl rfl, fun _ _ => List.not_mem_nil, fun _ => rfl⟩

/-- A stretch over one more character, unless the options keep it for the pattern. -/
theorem Stretch.cons_iff {isDeep lead : Bool} {c : Char} {u s : Text}
    (hdot : (lead && o.literalLeadingDot && c == '.') = false)
    (hsep : (!isDeep && o.literalSeparator && c == '/') = false) :
    Stretch o isDeep lead (c :: u) s ↔ Ends isDeep (c :: u) s ∧
      (isDeep = false → o.literalSeparator = true → '/' ∉ u) ∧
      (o.literalLeadingDot = true → noLeadingDot (c == '/') u = true) := by
  constructor
  · intro h
    refine ⟨h.ends, fun hd hs hu => h.separator hd hs (List.mem_cons_of_mem c hu), fun hl => ?_⟩
    exact (Bool.and_eq_true_iff.1 (h.dot hl)).2
  · intro hq
    obtain ⟨he, hs, hd⟩ := hq
    refine ⟨he, fun hdeep hlit hu => ?_, fun hlit => ?_⟩
    · rcases List.mem_cons.1 hu with hc | hu
      · simp [hdeep, hlit, ← hc] at hsep
      · exact hs hdeep hlit hu
    · rw [hlit, Bool.and_true] at hdot
      rw [noLeadingDot, hdot, hd hlit]
      rfl

/-- What a wildcard and the tokens behind it cover, if those cover `P`. -/
def Sweeps (isDeep : Bool) (P : Bool → Text → Prop) (lead : Bool) (s : Text) : Prop :=
  ∃ u v, s = u ++ v ∧ Stretch o isDeep lead u v ∧ P (leads lead u) v

theorem covers_run_iff {ts : List Token} {lead : Bool} {s : Text} :
    Covers o (run :: ts) lead s ↔ Sweeps o false (Covers o ts) lead s := by
  constructor
  · intro h
    cases h with
    | cons h _ => cases h
    | run h hts => exact ⟨_, _, rfl, (isRun_iff o).1 h, hts⟩
  · intro hq
    obtain ⟨u, v, rfl, h, hts⟩ := hq
    exact .run ((isRun_iff o).2 h) hts

theorem covers_deep_iff {ts : List Token} {lead : Bool} {s : Text} :
    Covers o (deep :: ts) lead s ↔ Sweeps o true (Covers o ts) lead s := by
  constructor
  · intro h
    cases h with
    | cons h _ => cases h
    | deep h hts => exact ⟨_, _, rfl, (isDeep_iff o).1 h, hts⟩
  · intro hq
    obtain ⟨u, v, rfl, h, hts⟩ := hq
    exact .deep ((isDeep_iff o).2 h) hts

/-! ### Verdicts -/

/-- What the verdicts of `next` say about the texts that `P` covers. With `onlyLeading`
it is asked at the starts of names only. -/
structure Decides (onlyLeading : Bool) (next : Bool → Text → Verdict) (P : Bool → Text → Prop) :
    Prop where
  matched : ∀ lead s, next lead s = .matched → P lead s
  stuck : ∀ lead s, next lead s = .stuck → ¬P lead s
  exhausted : ∀ lead u s, (onlyLeading = true → lead = true ∧ leads lead u = true) →
    next lead (u ++ s) = .exhausted → ¬P (leads lead u) s

variable {o} {isDeep : Bool} {next : Bool → Text → Verdict} {P : Bool → Text → Prop}

/-- A stretch that has to grow: it takes a character, unless the text is at its end. -/
def Grows (o : Options) (isDeep : Bool) (P : Bool → Text → Prop) (lead : Bool) (s : Text) : Prop :=
  ∃ u v, s = u ++ v ∧ (u = [] → v = []) ∧ Stretch o isDeep lead u v ∧ P (leads lead u) v

theorem grows_nil {lead : Bool} : Grows o isDeep P lead [] ↔ P lead [] := by
  constructor
  · intro hq
    obtain ⟨u, v, he, -, -, h⟩ := hq
    obtain ⟨rfl, rfl⟩ := List.append_eq_nil_iff.1 he.symm
    exact h
  · exact fun h => ⟨[], [], rfl, fun _ => rfl, .nil o isDeep lead [], h⟩

/-- Inside a name `**` cannot stop. -/
theorem grows_cons_of_inner {lead : Bool} {c : Char} {s : Text} (hd : isDeep = true) (hc : c ≠ '/')
    (hdot : (lead && o.literalLeadingDot && c == '.') = false) :
    Grows o isDeep P lead (c :: s) ↔ Grows o isDeep P false s := by
  have hcs : (c == '/') = false := beq_false_of_ne hc
  have hsep : (!isDeep && o.literalSeparator && c == '/') = false := by simp [hd]
  constructor
  · intro h
    obtain ⟨u, v, he, hn, hst, hp⟩ := h
    cases u with
    | nil => simp [hn rfl] at he
    | cons d u =>
      obtain ⟨rfl, rfl⟩ := List.cons.inj he
      obtain ⟨hends, hs, hl⟩ := (Stretch.cons_iff o hdot hsep).1 hst
      rw [hcs] at hl
      rw [leads_cons, hcs] at hp
      have hlast : u = [] → v = [] := by
        intro h
        subst h
        simpa [hc] using hends hd
      refine ⟨u, v, rfl, hlast, ⟨fun _ => ?_, hs, hl⟩, hp⟩
      cases u with
      | nil => exact .inl rfl
      | cons e u => simpa [List.getLast?_cons_cons] using hends hd
  · intro h
    obtain ⟨u, v, rfl, hn, hst, hp⟩ := h
    refine ⟨c :: u, v, rfl, by simp, (Stretch.cons_iff o hdot hsep).2 ⟨fun _ => ?_, hst.separator, ?_⟩,
      by rwa [leads_cons, hcs]⟩
    · cases u with
      | nil => exact .inr (.inr (hn rfl))
      | cons e u => simpa [List.getLast?_cons_cons] using hst.ends hd
    · rw [hcs]
      exact hst.dot

/-- Elsewhere it may stop behind the character, or grow on. -/
theorem grows_cons (P : Bool → Text → Prop) (lead : Bool) (s : Text) {c : Char}
    (hc : isDeep = true → c = '/')
    (hdot : (lead && o.literalLeadingDot && c == '.') = false)
    (hsep : (!isDeep && o.literalSeparator && c == '/') = false) :
    Grows o isDeep P lead (c :: s) ↔ P (c == '/') s ∨ Grows o isDeep P (c == '/') s := by
  constructor
  · intro h
    obtain ⟨u, v, he, hn, hst, hp⟩ := h
    cases u with
    | nil => simp [hn rfl] at he
    | cons d u =>
      obtain ⟨rfl, rfl⟩ := List.cons.inj he
      obtain ⟨hends, hs, hl⟩ := (Stretch.cons_iff o hdot hsep).1 hst
      rw [leads_cons] at hp
      cases u with
      | nil => exact .inl hp
      | cons e u =>
        refine .inr ⟨e :: u, v, rfl, by simp, ⟨fun hd => ?_, hs, hl⟩, hp⟩
        simpa [List.getLast?_cons_cons] using hends hd
  · intro h
    rcases h with hp | ⟨u, v, rfl, hn, hst, hp⟩
    · refine ⟨[c], s, rfl, by simp, (Stretch.cons_iff o hdot hsep).2 ⟨fun hd => ?_, ?_, ?_⟩, hp⟩
      · exact .inr (.inl (by rw [hc hd]; rfl))
      · exact fun _ _ => List.not_mem_nil
      · exact fun _ => rfl
    · refine ⟨c :: u, v, rfl, by simp, (Stretch.cons_iff o hdot hsep).2
        ⟨fun hd => ?_, hst.separator, hst.dot⟩, by rwa [leads_cons]⟩
      cases u with
      | nil => exact .inr (.inl (by rw [hc hd]; rfl))
      | cons e u => simpa [List.getLast?_cons_cons] using hst.ends hd

/-! ### Growing a stretch

An exhausted attempt leaves no hope under any options: without them (`{}`) a stretch
is only held to where it may end. -/

/-- What is said about a wildcard that has to grow. -/
structure GrowthDecided (o : Options) (isDeep : Bool) (P : Bool → Text → Prop) (lead : Bool)
    (s : Text) (verdict : Verdict) : Prop where
  matched : verdict = .matched → Grows o isDeep P lead s
  stuck : verdict = .stuck → ¬Grows o isDeep P lead s
  exhausted : verdict = .exhausted → ¬Grows {} isDeep P lead s

theorem not_grows_of_dot {lead : Bool} {c : Char} {s : Text}
    (hdot : (lead && o.literalLeadingDot && c == '.') = true) :
    ¬Grows o isDeep P lead (c :: s) := by
  intro h
  obtain ⟨u, v, he, hn, hst, -⟩ := h
  cases u with
  | nil => simp [hn rfl] at he
  | cons d u =>
    obtain ⟨rfl, rfl⟩ := List.cons.inj he
    simp only [Bool.and_eq_true] at hdot
    have hl := hst.dot hdot.1.2
    simp [noLeadingDot, hdot.1.1, hdot.2] at hl

theorem not_grows_of_separator {lead : Bool} {c : Char} {s : Text}
    (hsep : (!isDeep && o.literalSeparator && c == '/') = true) :
    ¬Grows o isDeep P lead (c :: s) := by
  intro h
  obtain ⟨u, v, he, hn, hst, -⟩ := h
  cases u with
  | nil => simp [hn rfl] at he
  | cons d u =>
    obtain ⟨rfl, rfl⟩ := List.cons.inj he
    simp only [Bool.and_eq_true, Bool.not_eq_true', beq_iff_eq] at hsep
    exact hst.separator hsep.1.1 hsep.1.2 (by simp [hsep.2])

theorem not_grows_of_exhausted (hn : Decides false next P) {lead : Bool} {s : Text}
    (h : next lead s = .exhausted) : ¬Grows {} isDeep P lead s := by
  intro hq
  obtain ⟨u, v, rfl, -, -, hp⟩ := hq
  exact hn.exhausted lead u v (by simp) h hp

theorem growthDecided_grow (hn : Decides false next P) (lead : Bool) (s : Text) :
    GrowthDecided o isDeep P lead s (grow o isDeep next lead s) := by
  fun_induction grow o isDeep next lead s with
  | case1 lead =>
    exact ⟨fun h => grows_nil.2 (hn.matched _ _ h), fun h hg => hn.stuck _ _ h (grows_nil.1 hg),
      not_grows_of_exhausted hn⟩
  | case2 lead c s hdot =>
    exact ⟨nofun, fun _ => not_grows_of_dot hdot, nofun⟩
  | case3 lead c s isSeparator hdot hin ih =>
    obtain ⟨hd, hc⟩ := Bool.and_eq_true_iff.1 hin
    have hcs : isSeparator = false := by simpa using hc
    rw [hcs] at ih ⊢
    have hne : c ≠ '/' := by simpa [isSeparator] using hcs
    have hdot := eq_false_of_ne_true hdot
    have hfree : (lead && ({} : Options).literalLeadingDot && c == '.') = false := by simp
    exact ⟨fun h => (grows_cons_of_inner hd hne hdot).2 (ih.matched h),
      fun h hg => ih.stuck h ((grows_cons_of_inner hd hne hdot).1 hg),
      fun h hg => ih.exhausted h ((grows_cons_of_inner hd hne hfree).1 hg)⟩
  | case4 lead c s isSeparator hdot hin hsep =>
    exact ⟨nofun, fun _ => not_grows_of_separator hsep, nofun⟩
  | case5 lead c s isSeparator hdot hin hsep hstuck ih =>
    have hc : isDeep = true → c = '/' := fun hd => by simpa [hd, isSeparator] using hin
    have hfail := hn.stuck _ _ hstuck
    have hstep := grows_cons P lead s hc (eq_false_of_ne_true hdot) (eq_false_of_ne_true hsep)
    have hfree := grows_cons (o := {}) P lead s hc (by simp) (by simp)
    exact ⟨fun h => hstep.2 (.inr (ih.matched h)),
      fun h hg => (hstep.1 hg).elim hfail (ih.stuck h),
      fun h hg => (hfree.1 hg).elim hfail (ih.exhausted h)⟩
  | case6 lead c s isSeparator hdot hin hsep hmoved =>
    have hc : isDeep = true → c = '/' := fun hd => by simpa [hd, isSeparator] using hin
    have hstep := grows_cons P lead s hc (eq_false_of_ne_true hdot) (eq_false_of_ne_true hsep)
    have hfree := grows_cons (o := {}) P lead s hc (by simp) (by simp)
    refine ⟨fun h => hstep.2 (.inl (hn.matched _ _ h)), fun h => (hmoved h).elim, fun h hg => ?_⟩
    rcases hfree.1 hg with hp | hg
    · exact hn.exhausted _ [] _ (by simp) h hp
    · exact not_grows_of_exhausted hn h hg

/-! ### Recursion on the tokens -/

theorem sweeps_iff {lead : Bool} {s : Text} :
    Sweeps o isDeep P lead s ↔ P lead s ∨ Grows o isDeep P lead s := by
  constructor
  · intro h
    obtain ⟨u, v, rfl, hst, hp⟩ := h
    cases u with
    | nil => exact .inl hp
    | cons c u => exact .inr ⟨c :: u, v, rfl, by simp, hst, hp⟩
  · intro h
    rcases h with hp | ⟨u, v, rfl, -, hst, hp⟩
    · exact ⟨[], s, rfl, .nil o isDeep lead s, hp⟩
    · exact ⟨u, v, rfl, hst, hp⟩

/-- A place that a later start can reach can be reached from an earlier one, options aside. -/
theorem Sweeps.of_later {lead : Bool} {u s : Text}
    (hlead : isDeep = true → lead = true ∧ leads lead u = true)
    (h : Sweeps o isDeep P (leads lead u) s) : Sweeps {} isDeep P lead (u ++ s) := by
  obtain ⟨v, w, rfl, hst, hp⟩ := h
  refine ⟨u ++ v, w, by simp, ⟨fun hd => ?_, by simp, by simp⟩, by rwa [leads_append]⟩
  rcases hst.ends hd with rfl | hv | rfl
  · rw [List.append_nil]
    obtain ⟨rfl, hu⟩ := hlead hd
    exact (leads_true hu).imp_right .inl
  · exact .inr (.inl (by simp [List.getLast?_append, hv]))
  · exact .inr (.inr rfl)

/-- A wildcard before tokens that do not start with `**`. -/
theorem decides_sweep (hn : Decides false next P) :
    Decides isDeep (sweep o isDeep next) (Sweeps o isDeep P) := by
  have hcases : ∀ lead s, next lead s = .stuck ∧
      sweep o isDeep next lead s = grow o isDeep next lead s ∨
      next lead s ≠ .stuck ∧ sweep o isDeep next lead s = next lead s := by
    intro lead s
    unfold sweep
    split
    · rename_i h
      exact .inl ⟨h, rfl⟩
    · rename_i h
      exact .inr ⟨h, rfl⟩
  have hgrow : ∀ lead s, GrowthDecided o isDeep P lead s (grow o isDeep next lead s) :=
    growthDecided_grow hn
  refine ⟨fun lead s h => ?_, fun lead s h => ?_, fun lead u s hl h hs => ?_⟩
  · rcases hcases lead s with ⟨-, he⟩ | ⟨-, he⟩ <;> rw [he] at h
    · exact sweeps_iff.2 (.inr ((hgrow lead s).matched h))
    · exact sweeps_iff.2 (.inl (hn.matched _ _ h))
  · rcases hcases lead s with ⟨hnext, he⟩ | ⟨hnext, he⟩ <;> rw [he] at h
    · exact fun hs => (sweeps_iff.1 hs).elim (hn.stuck _ _ hnext) ((hgrow lead s).stuck h)
    · exact absurd h hnext
  · have hfree := sweeps_iff.1 (hs.of_later hl)
    rcases hcases lead (u ++ s) with ⟨hnext, he⟩ | ⟨hnext, he⟩ <;> rw [he] at h
    · exact hfree.elim (hn.stuck _ _ hnext) ((hgrow lead (u ++ s)).exhausted h)
    · refine hfree.elim ?_ (not_grows_of_exhausted hn h)
      exact hn.exhausted _ [] _ (by simp) h

variable {t : Token} {ts : List Token}

theorem matchFrom_nil (hr : t ≠ run) (hd : t ≠ deep) (lead : Bool) :
    matchFrom o (t :: ts) lead [] = .exhausted := by
  cases t with
  | run => exact absurd rfl hr
  | deep => exact absurd rfl hd
  | _ => rfl

theorem matchFrom_cons (hr : t ≠ run) (hd : t ≠ deep) (lead : Bool) (c : Char) (s : Text) :
    matchFrom o (t :: ts) lead (c :: s) =
      if t.covers o lead c then matchFrom o ts (c == '/') s else .stuck := by
  cases t with
  | run => exact absurd rfl hr
  | deep => exact absurd rfl hd
  | _ => rfl

theorem covers_cons_iff (hr : t ≠ run) (hd : t ≠ deep) {lead : Bool} {s : Text} :
    Covers o (t :: ts) lead s ↔
      ∃ c r, s = c :: r ∧ t.covers o lead c = true ∧ Covers o ts (c == '/') r := by
  constructor
  · intro h
    cases h with
    | cons ht hts => exact ⟨_, _, rfl, covers_iff.2 ht, hts⟩
    | run => exact absurd rfl hr
    | deep => exact absurd rfl hd
  · intro hq
    obtain ⟨c, r, rfl, ht, hts⟩ := hq
    exact .cons (covers_iff.1 ht) hts

/-- A token for one character. Where `**` comes next it is a separator, so `**` is asked
about the start of a name. -/
theorem decides_cons (hr : t ≠ run) (hd : t ≠ deep)
    (hsep : ts.head? = some deep → t = char '/')
    (hn : Decides (ts.head? = some deep) (matchFrom o ts) (Covers o ts)) :
    Decides false (matchFrom o (t :: ts)) (Covers o (t :: ts)) := by
  have hleads : ∀ lead c, t.covers o lead c = true → ts.head? = some deep → c = '/' := by
    intro lead c ht hh
    rw [hsep hh] at ht
    exact (Text.same_separator ht).2 rfl
  refine ⟨fun lead s h => ?_, fun lead s h hs => ?_, fun lead u s _ h hs => ?_⟩
  · cases s with
    | nil => simp [matchFrom_nil hr hd] at h
    | cons c r =>
      rw [matchFrom_cons hr hd] at h
      split at h
      · rename_i ht
        exact .cons (covers_iff.1 ht) (hn.matched _ _ h)
      · cases h
  · obtain ⟨c, r, rfl, ht, hts⟩ := (covers_cons_iff hr hd).1 hs
    rw [matchFrom_cons hr hd, if_pos ht] at h
    exact hn.stuck _ _ h hts
  · obtain ⟨c, r, rfl, ht, hts⟩ := (covers_cons_iff hr hd).1 hs
    cases u with
    | nil =>
      rw [List.nil_append, matchFrom_cons hr hd] at h
      split at h
      · rename_i hc
        refine hn.exhausted (c == '/') [] r (fun hh => ?_) h hts
        have := hleads _ _ hc (of_decide_eq_true hh)
        simp [this]
      · cases h
    | cons d u =>
      rw [List.cons_append, matchFrom_cons hr hd] at h
      split at h
      · rename_i hdc
        have hlast : leads (d == '/') (u ++ [c]) = (c == '/') := by simp [leads]
        refine hn.exhausted (d == '/') (u ++ [c]) r (fun hh => ?_) (by simpa using h) (by rwa [hlast])
        rw [hlast, hleads _ _ hdc (of_decide_eq_true hh), hleads _ _ ht (of_decide_eq_true hh)]
        exact ⟨rfl, rfl⟩
      · cases h

theorem decides_nil : Decides false (matchFrom o []) (Covers o []) := by
  refine ⟨fun lead s h => ?_, fun lead s h hs => ?_, fun lead u s _ h => ?_⟩
  · cases s with
    | nil => exact .nil
    | cons c s => cases h
  · cases hs
    cases h
  · unfold matchFrom at h
    split at h <;> cases h

theorem decides_matchFrom {start : Bool} (h : Placed start ts) :
    Decides (ts.head? = some deep) (matchFrom o ts) (Covers o ts) := by
  induction ts generalizing start with
  | nil => exact decides_nil
  | cons t ts ih =>
    have hts := ih h.2
    by_cases hr : t = run
    · subst hr
      have hne : ts.head? ≠ some deep := h.2.head_ne
      rw [decide_eq_false hne] at hts
      have heq : Covers o (run :: ts) = Sweeps o false (Covers o ts) :=
        funext fun lead => funext fun s => propext (covers_run_iff o)
      rw [heq]
      exact decides_sweep hts
    by_cases hd : t = deep
    · subst hd
      have hne : ts.head? ≠ some deep := h.2.head_ne
      rw [decide_eq_false hne] at hts
      have heq : Covers o (deep :: ts) = Sweeps o true (Covers o ts) :=
        funext fun lead => funext fun s => propext (covers_deep_iff o)
      rw [heq]
      exact decides_sweep hts
    · have hhead : (t :: ts).head? ≠ some deep := fun he => hd (Option.some.inj he)
      rw [decide_eq_false hhead]
      refine decides_cons hr hd (fun hh => ?_) hts
      cases ts with
      | nil => cases hh
      | cons e ts => exact of_decide_eq_true (h.2.1 (Option.some.inj hh))

/-- Where `**` stands only where a name starts, a match is found exactly if there is one. -/
theorem matchFrom_eq_matched (h : Placed true ts) {text : Text} :
    matchFrom o ts true text = .matched ↔ Covers o ts true text := by
  have hd := decides_matchFrom (o := o) h
  refine ⟨hd.matched true text, fun hc => ?_⟩
  cases hv : matchFrom o ts true text with
  | matched => rfl
  | stuck => exact absurd hc (hd.stuck _ _ hv)
  | exhausted => exact absurd hc (hd.exhausted true [] text (fun _ => ⟨rfl, rfl⟩) hv)

end PathGlob.Token

namespace PathGlob.Pattern

/-- **Backtracking finds a pattern to cover a text exactly when the text falls into
stretches for its tokens.** Cutting attempts short loses no match and adds none. -/
theorem covers_iff_covers (o : Options) (p : Pattern) (text : Text) :
    p.covers o text = true ↔ Token.Covers o p.tokens true text := by
  rw [covers, decide_eq_true_iff]
  exact Token.matchFrom_eq_matched (Token.placed_tokens p)

end PathGlob.Pattern

/-! ### Positions -/

namespace PathGlob.Token

/-- Whether a name starts at the position: in front of the text, or behind a separator. -/
def startsName (text : Text) (pos : Nat) : Bool := pos = 0 || text[pos - 1]? = some '/'

theorem leads_take {text : Text} {pos : Nat} (h : pos ≤ text.length) :
    leads true (text.take pos) = startsName text pos := by
  cases pos with
  | zero => rfl
  | succ n =>
    obtain ⟨c, hc⟩ : ∃ c, text[n]? = some c := ⟨_, List.getElem?_eq_getElem h⟩
    simp [leads, startsName, List.getLast?_take, hc, Bool.beq_eq_decide_eq]

/-- A row of tokens from one of them on is as well placed as all of it. -/
theorem Placed.drop {start : Bool} {ts : List Token} (h : Placed start ts) (i : Nat) :
    ∃ start', Placed start' (ts.drop i) := by
  induction ts generalizing start i with
  | nil => exact ⟨start, by rwa [List.drop_nil]⟩
  | cons t ts ih =>
    cases i with
    | zero => exact ⟨start, h⟩
    | succ i => exact ih h.2 i

end PathGlob.Token

namespace PathGlob.Pattern
open Token (matchFrom startsName)

/-- **Where the text is exhausted, no later position leads to a match.** The tokens from one of
them on are tried at a position of the text; if that one is `**`, at positions where a name
starts. So a wildcard before them may give up as soon as one attempt ends exhausted. -/
theorem ne_matched_of_exhausted (o : Options) (p : Pattern) {text : Text} {i pos later : Nat}
    (hdeep : p.tokens[i]? = some .deep →
      startsName text pos = true ∧ startsName text later = true)
    (hle : pos ≤ later) (hlen : later ≤ text.length)
    (h : matchFrom o (p.tokens.drop i) (startsName text pos) (text.drop pos) = .exhausted) :
    matchFrom o (p.tokens.drop i) (startsName text later) (text.drop later) ≠ .matched := by
  intro hm
  obtain ⟨start, hplaced⟩ := (Token.placed_tokens p).drop i
  have hd := Token.decides_matchFrom (o := o) hplaced
  -- Between the positions lies a stretch, and a name starts behind it iff one starts later.
  obtain ⟨u, hu⟩ : ∃ u, text.take later = text.take pos ++ u := by
    refine ⟨(text.drop pos).take (later - pos), ?_⟩
    rw [← List.take_add, Nat.add_sub_cancel' hle]
  have hdrop : text.drop pos = u ++ text.drop later := by
    have hall : text.take pos ++ text.drop pos = text.take pos ++ (u ++ text.drop later) := by
      rw [List.take_append_drop, ← List.append_assoc, ← hu, List.take_append_drop]
    exact List.append_cancel_left hall
  have hlater : Token.leads (startsName text pos) u = startsName text later := by
    rw [← Token.leads_take (Nat.le_trans hle hlen), ← Token.leads_append, ← hu,
      Token.leads_take hlen]
  refine hd.exhausted (startsName text pos) u (text.drop later) (fun hh => ?_) (hdrop ▸ h) ?_
  · rw [hlater]
    exact hdeep (by simpa using hh)
  · rw [hlater]
    exact hd.matched _ _ hm

/-- After the separator the text ends too early for `**` to find a `b` and one more character. -/
theorem ne_matched_of_exhausted_deep :
    ∃ p, compile "**/b?".toList = .ok p ∧ p.tokens[0]? = some .deep ∧
      matchFrom {} (p.tokens.drop 0) (startsName "a/b".toList 0) ("a/b".toList.drop 0) =
        .exhausted ∧
      matchFrom {} (p.tokens.drop 0) (startsName "a/b".toList 2) ("a/b".toList.drop 2) ≠
        .matched := by
  have hp : Token.ofSource "**/b?".toList = .ok [.deep, .char 'b', .one] := by cbv
  have hfirst : matchFrom {} [.deep, .char 'b', .one] (startsName "a/b".toList 0) "a/b".toList =
      .exhausted := by decide
  refine ⟨_, compile_eq_ok hp, rfl, hfirst, ?_⟩
  exact ne_matched_of_exhausted {} ⟨_, _, hp⟩ (fun _ => ⟨by decide, by decide⟩) (Nat.zero_le 2)
    (by decide) hfirst

end PathGlob.Pattern

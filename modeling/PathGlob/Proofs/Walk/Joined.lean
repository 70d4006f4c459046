import Mathlib
import PathGlob.Proofs.Pattern.Components
import PathGlob.Proofs.Pattern.Covering
import PathGlob.Proofs.Walk.Planned
import PathGlob.Proofs.Walk.Sharing

/-! Names taken one by one, and names joined to one text.

A walk takes a way name by name; a pattern can also be asked about the joined text of
the way. Where wildcards leave separators alone the two agree but for one thing: behind
a separator `**` takes at least one name in the text and may take none in the walk. So
a way is one of the pattern exactly if its text is covered by the pattern, or by the
pattern without the `/**` at its end (`isFinal_iff_covers`). -/
namespace PathGlob

/-- The names as one text. -/
def joinNames (names : List Text) : Text := ['/'].intercalate names

theorem joinNames_cons {n : Text} {names : List Text} (h : names ≠ []) :
    joinNames (n :: names) = n ++ '/' :: joinNames names := by
  cases names with
  | nil => exact absurd rfl h
  | cons m names => simp [joinNames, List.intercalate_cons_cons]

theorem joinNames_append {names more : List Text} (h : names ≠ []) (h' : more ≠ []) :
    joinNames (names ++ more) = joinNames names ++ '/' :: joinNames more := by
  induction names with
  | nil => exact absurd rfl h
  | cons n names ih =>
    cases names with
    | nil => simpa [joinNames, List.intercalate_singleton] using joinNames_cons h'
    | cons m names =>
      have hm : m :: names ≠ [] := by simp
      rw [List.cons_append, joinNames_cons (by simp), ih hm, joinNames_cons hm, List.append_assoc,
        List.cons_append]

/-- A joined text falls into joined texts at each of its separators. -/
theorem joinNames_eq_append {names : List Text} {u v : Text} (hne : names ≠ [])
    (h : ∀ n ∈ names, '/' ∉ n) (he : joinNames names = u ++ '/' :: v) :
    ∃ front back, names = front ++ back ∧ front ≠ [] ∧ back ≠ [] ∧
      joinNames front = u ∧ joinNames back = v := by
  refine ⟨u.splitOn '/', v.splitOn '/', ?_, List.splitOn_ne_nil _ _, List.splitOn_ne_nil _ _,
    List.intercalate_splitOn .., List.intercalate_splitOn ..⟩
  rw [← List.splitOn_append_cons_self, ← he, joinNames, List.splitOn_intercalate '/' h hne]

/-- A text of one name is that name. -/
theorem eq_singleton_of_not_mem {names : List Text} (hne : names ≠ []) (h : ∀ n ∈ names, '/' ∉ n)
    (hs : '/' ∉ joinNames names) : names = [joinNames names] := by
  rw [← List.splitOn_eq_singleton hs, joinNames, List.splitOn_intercalate '/' h hne]

/-! ### Dots at the start of names -/

/-- No name of the row may be left to the pattern because it starts with a dot. -/
def Unhidden (o : Options) (names : List Text) : Prop :=
  ∀ n ∈ names, (o.literalLeadingDot && isHidden n) = false

namespace Token

theorem noLeadingDot_name {n : Text} (h : '/' ∉ n) : noLeadingDot true n = !isHidden n := by
  cases n with
  | nil => rfl
  | cons c n =>
    simp only [List.mem_cons, not_or] at h
    rw [noLeadingDot, beq_false_of_ne (Ne.symm h.1), noLeadingDot_of_inner h.2]
    simp [isHidden]

theorem noLeadingDot_joinNames {names : List Text} (h : ∀ n ∈ names, '/' ∉ n) :
    noLeadingDot true (joinNames names) = names.all fun n => !isHidden n := by
  induction names with
  | nil => rfl
  | cons n names ih =>
    obtain ⟨hn, hns⟩ := List.forall_mem_cons.1 h
    cases names with
    | nil => simp [joinNames, List.intercalate_singleton, noLeadingDot_name hn]
    | cons m names =>
      rw [joinNames_cons (by simp), noLeadingDot_append, noLeadingDot_name hn, noLeadingDot,
        beq_self_eq_true, ih hns]
      simp

theorem unhidden_iff {o : Options} {names : List Text} (h : ∀ n ∈ names, '/' ∉ n) :
    (o.literalLeadingDot = true → noLeadingDot true (joinNames names) = true) ↔
      Unhidden o names := by
  rw [noLeadingDot_joinNames h]
  cases hd : o.literalLeadingDot <;> simp [Unhidden, hd]

theorem unhidden_slash_iff {o : Options} {names : List Text} (h : ∀ n ∈ names, '/' ∉ n) :
    (o.literalLeadingDot = true → noLeadingDot true (joinNames names ++ ['/']) = true) ↔
      Unhidden o names := by
  have hslash : ∀ lead, noLeadingDot lead ['/'] = true := by decide
  rw [noLeadingDot_append, hslash, Bool.and_true, unhidden_iff h]

end Token

/-! ### Components in the joined text -/

/-- A pattern covers what its tokens do, merged or not. -/
theorem Pattern.covers_iff_of_tokens {o : Options} {p : Pattern} {ts : List Token}
    (h : p.tokens = Token.merged ts) {text : Text} :
    p.covers o text = true ↔ Token.Covers o ts true text := by
  rw [Pattern.covers, decide_eq_true_iff, Token.matchFrom_eq_matched (Token.placed_tokens p), h,
    Token.covers_merged]

section Joined
variable {o : Options} {c : Pattern} {cs : List Pattern} {ts : List Token} {n : Text}
  {names : List Text}

theorem covers_component_iff (hc : '/' ∉ c.source) (hr : c.isRecursive = false) :
    c.covers o n = true ↔ Token.Covers o c.tokens true n := by
  refine Pattern.covers_iff_of_tokens (Token.merged_eq_self fun t ht => ?_).symm
  exact (Pattern.tokens_of_plain hc hr t ht).1

/-- A plain component takes the first name. -/
theorem covers_plain_iff (hsep : o.literalSeparator = true) (hc : '/' ∉ c.source)
    (hr : c.isRecursive = false) (hne : names ≠ []) (hn : ∀ n ∈ names, '/' ∉ n) :
    Token.Covers o (c.tokens ++ .char '/' :: ts) true (joinNames names) ↔
      ∃ n more, names = n :: more ∧ more ≠ [] ∧ c.covers o n = true ∧
        Token.Covers o ts true (joinNames more) := by
  have htokens := Pattern.tokens_of_plain hc hr
  rw [Token.covers_append fun t ht => (htokens t ht).1]
  constructor
  · intro hq
    obtain ⟨u, v, he, hu, hv⟩ := hq
    obtain ⟨r, rfl, hts⟩ := Token.covers_separator_iff.1 hv
    have hslash := Token.not_mem_of_covers hsep htokens hu
    obtain ⟨front, back, rfl, hf, hb, rfl, rfl⟩ := joinNames_eq_append hne hn he
    have hfront : ∀ n ∈ front, '/' ∉ n := fun n h => hn n (List.mem_append_left _ h)
    refine ⟨joinNames front, back, ?_, hb, (covers_component_iff hc hr).2 hu, hts⟩
    rw [← List.singleton_append, ← eq_singleton_of_not_mem hf hfront hslash]
  · intro hq
    obtain ⟨n, more, rfl, hm, hcov, hts⟩ := hq
    refine ⟨n, '/' :: joinNames more, joinNames_cons hm, (covers_component_iff hc hr).1 hcov, ?_⟩
    exact Token.covers_separator_iff.2 ⟨_, rfl, hts⟩

/-- `**` takes names as long as one is left, or all there are when nothing has to follow. -/
theorem covers_recursive_iff (hne : names ≠ []) (hn : ∀ n ∈ names, '/' ∉ n) :
    Token.Covers o (.deep :: ts) true (joinNames names) ↔
      (∃ front back, names = front ++ back ∧ back ≠ [] ∧ Unhidden o front ∧
        Token.Covers o ts true (joinNames back)) ∨
      Unhidden o names ∧ Token.Covers o ts (Token.leads true (joinNames names)) [] := by
  constructor
  · intro h
    generalize hj : joinNames names = text at h
    cases h with
    | cons hc _ => cases hc
    | @deep _ _ u s hu hs =>
      rcases hu.1 with rfl | hlast | rfl
      · rw [List.nil_append] at hj
        exact .inl ⟨[], names, rfl, hne, by simp [Unhidden], by rwa [hj]⟩
      · obtain ⟨w, rfl⟩ := List.getLast?_eq_some_iff.1 hlast
        rw [List.append_assoc, List.singleton_append] at hj
        obtain ⟨front, back, rfl, -, hb, rfl, rfl⟩ := joinNames_eq_append hne hn hj
        have hfront : ∀ n ∈ front, '/' ∉ n := fun n h => hn n (List.mem_append_left _ h)
        refine .inl ⟨front, back, rfl, hb, (Token.unhidden_slash_iff hfront).1 hu.2, ?_⟩
        simpa [Token.leads] using hs
      · rw [List.append_nil] at hj ⊢
        rw [← hj] at hu hs
        exact .inr ⟨(Token.unhidden_iff hn).1 hu.2, hj ▸ hs⟩
  · intro hq
    rcases hq with ⟨front, back, rfl, hb, hf, hs⟩ | ⟨hu, hs⟩
    · have hfront : ∀ n ∈ front, '/' ∉ n := fun n h => hn n (List.mem_append_left _ h)
      by_cases hempty : front = []
      · have hstretch : Token.IsDeep o true [] (joinNames back) := ⟨.inl rfl, fun _ => rfl⟩
        rw [hempty]
        exact .deep (u := []) hstretch hs
      · have hstretch : Token.IsDeep o true (joinNames front ++ ['/']) (joinNames back) :=
          ⟨.inr (.inl List.getLast?_concat), (Token.unhidden_slash_iff hfront).2 hf⟩
        have hcat : joinNames (front ++ back) = (joinNames front ++ ['/']) ++ joinNames back := by
          simp [joinNames_append hempty hb]
        rw [hcat]
        refine .deep hstretch ?_
        simpa [Token.leads] using hs
    · have hstretch : Token.IsDeep o true (joinNames names) [] :=
        ⟨.inr (.inr rfl), (Token.unhidden_iff hn).2 hu⟩
      rw [← List.append_nil (joinNames names)]
      exact .deep hstretch hs

/-- Tokens that can do without a text can also take a name, unless it is hidden. -/
theorem covers_of_empty {lead : Bool} (hts : ts ≠ []) (h : Token.Covers o ts lead [])
    (hn : '/' ∉ n) (hu : Unhidden o [n]) : Token.Covers o ts true n := by
  have hempty : ∀ {ts : List Token} {lead other : Bool}, Token.Covers o ts lead [] →
      Token.Covers o ts other [] := by
    intro ts lead other h
    generalize he : ([] : Text) = s at h
    induction h generalizing other with
    | nil => exact .nil
    | cons => cases he
    | @run ts _ u s hr _ ih =>
      obtain ⟨rfl, rfl⟩ := List.append_eq_nil_iff.1 he.symm
      exact .run (u := []) ⟨fun _ => List.not_mem_nil, fun _ => rfl⟩ (ih rfl)
    | @deep ts _ u s hd _ ih =>
      obtain ⟨rfl, rfl⟩ := List.append_eq_nil_iff.1 he.symm
      exact .deep (u := []) ⟨.inl rfl, fun _ => rfl⟩ (ih rfl)
  have hdot : o.literalLeadingDot = true → Token.noLeadingDot true n = true := by
    have hslash : ∀ m ∈ [n], '/' ∉ m := by simpa using hn
    have := (Token.unhidden_iff hslash).2 hu
    simpa [joinNames, List.intercalate_singleton] using this
  generalize he : ([] : Text) = s at h
  rw [← List.append_nil n]
  cases h with
  | nil => exact absurd rfl hts
  | cons => cases he
  | run _ hs =>
    obtain ⟨-, rfl⟩ := List.append_eq_nil_iff.1 he.symm
    exact .run ⟨fun _ => hn, hdot⟩ (hempty hs)
  | deep _ hs =>
    obtain ⟨-, rfl⟩ := List.append_eq_nil_iff.1 he.symm
    exact .deep ⟨.inr (.inr rfl), hdot⟩ (hempty hs)

/-! ### Sharing names and covering their text -/

theorem splits_plain_iff (hr : c.isRecursive = false) :
    Splits o (c :: cs) names ↔
      ∃ n more, names = n :: more ∧ c.covers o n = true ∧ Splits o cs more := by
  constructor
  · intro h
    cases h with
    | plain _ hcov hs => exact ⟨_, _, rfl, hcov, hs⟩
    | leave h _ => rw [h] at hr; cases hr
    | more h _ _ => rw [h] at hr; cases hr
  · intro hq
    obtain ⟨n, more, rfl, hcov, hs⟩ := hq
    exact .plain hr hcov hs

theorem splits_recursive_iff (hr : c.isRecursive = true) :
    Splits o (c :: cs) names ↔
      ∃ front back, names = front ++ back ∧ Unhidden o front ∧ Splits o cs back := by
  constructor
  · intro h
    generalize he : c :: cs = ds at h
    induction h with
    | nil => cases he
    | plain h =>
      obtain ⟨rfl, rfl⟩ := List.cons.inj he
      rw [h] at hr
      cases hr
    | leave _ hs =>
      obtain ⟨rfl, rfl⟩ := List.cons.inj he
      exact ⟨[], _, rfl, by simp [Unhidden], hs⟩
    | more _ hh _ ih =>
      obtain ⟨front, back, rfl, hu, hs⟩ := ih he
      exact ⟨_ :: front, back, rfl, List.forall_mem_cons.2 ⟨hh, hu⟩, hs⟩
  · intro hq
    obtain ⟨front, back, rfl, hu, hs⟩ := hq
    induction front with
    | nil => exact .leave hr hs
    | cons n front ih =>
      obtain ⟨hh, hu⟩ := List.forall_mem_cons.1 hu
      exact .more hr hh (ih hu)

open Pattern (woven woven_recursive woven_plain)

theorem woven_ne_nil (hne : cs ≠ []) (h : ∀ c ∈ cs, Plain c.source) : woven cs ≠ [] := by
  cases cs with
  | nil => exact absurd rfl hne
  | cons c cs =>
    have ht := Pattern.tokens_ne_nil (List.forall_mem_cons.1 h).1.ne_nil
    cases hr : c.isRecursive with
    | true => simp [woven_recursive (List.forall_mem_cons.1 h).1.not_mem hr]
    | false =>
      cases cs with
      | nil => exact ht
      | cons d cs =>
        rw [woven_plain (List.cons_ne_nil d cs) hr]
        simp

/-- Components that cover a joined text share its names. -/
theorem splits_of_covers (hsep : o.literalSeparator = true) (hne : cs ≠ [])
    (h : ∀ c ∈ cs, Plain c.source) (hnames : names ≠ []) (hn : ∀ n ∈ names, '/' ∉ n)
    (hcov : Token.Covers o (woven cs) true (joinNames names)) : Splits o cs names := by
  induction cs generalizing names with
  | nil => exact absurd rfl hne
  | cons c cs ih =>
    obtain ⟨hc, hcs⟩ := List.forall_mem_cons.1 h
    cases hr : c.isRecursive with
    | false =>
      by_cases hlast : cs = []
      · subst hlast
        have hslash := Token.not_mem_of_covers hsep (Pattern.tokens_of_plain hc.not_mem hr) hcov
        rw [eq_singleton_of_not_mem hnames hn hslash]
        exact .plain hr ((covers_component_iff hc.not_mem hr).2 hcov) .nil
      · rw [woven_plain hlast hr, covers_plain_iff hsep hc.not_mem hr hnames hn] at hcov
        obtain ⟨n, more, rfl, hm, hcn, hs⟩ := hcov
        exact .plain hr hcn (ih hlast hcs hm (List.forall_mem_cons.1 hn).2 hs)
    | true =>
      rw [woven_recursive hc.not_mem hr, covers_recursive_iff hnames hn] at hcov
      rw [splits_recursive_iff hr]
      by_cases hlast : cs = []
      · subst hlast
        refine ⟨names, [], (List.append_nil _).symm, ?_, .nil⟩
        rcases hcov with ⟨front, back, rfl, hb, hu, hs⟩ | ⟨hu, -⟩
        · -- Nothing is left for no component, so the last name is empty.
          have hback : ∀ n ∈ back, '/' ∉ n := fun n h => hn n (List.mem_append_right _ h)
          have hnil := Token.covers_nil_iff.1 hs
          rw [eq_singleton_of_not_mem hb hback (by simp [hnil]), hnil]
          intro n hm
          rcases List.mem_append.1 hm with hm | hm
          · exact hu n hm
          · simp [List.mem_singleton.1 hm, isHidden]
        · exact hu
      · rcases hcov with ⟨front, back, rfl, hb, hu, hs⟩ | ⟨hu, hs⟩
        · have hback : ∀ n ∈ back, '/' ∉ n := fun n h => hn n (List.mem_append_right _ h)
          exact ⟨front, back, rfl, hu, ih hlast hcs hb hback hs⟩
        · -- What needs no text is content with the last name.
          have hl := List.getLast_mem hnames
          have hlslash : ∀ n ∈ [names.getLast hnames], '/' ∉ n := by simpa using hn _ hl
          have hlast' := covers_of_empty (woven_ne_nil hlast hcs) hs (hn _ hl)
            (by simpa [Unhidden] using hu _ hl)
          refine ⟨names.dropLast, [names.getLast hnames], (List.dropLast_concat_getLast hnames).symm,
            fun n hm => hu n (List.dropLast_subset _ hm), ih hlast hcs (by simp) hlslash ?_⟩
          simpa [joinNames, List.intercalate_singleton] using hlast'

theorem covers_woven_empty {lead : Bool} (h : ∀ c ∈ cs, Plain c.source)
    (hr : ∀ c ∈ cs, c.isRecursive = true) : Token.Covers o (woven cs) lead [] := by
  induction cs generalizing lead with
  | nil => exact .nil
  | cons c cs ih =>
    obtain ⟨hc, hcs⟩ := List.forall_mem_cons.1 h
    obtain ⟨hrc, hrcs⟩ := List.forall_mem_cons.1 hr
    have hempty : Token.IsDeep o lead [] [] := ⟨.inl rfl, fun _ => rfl⟩
    rw [woven_recursive hc.not_mem hrc]
    exact .deep (u := []) hempty (ih hcs hrcs)

end Joined

/-! ### The end of a pattern -/

section End
variable {o : Options} {cs : List Pattern} {names : List Text}

open Pattern (woven woven_recursive woven_plain)

/-- Components without the recursive ones at their end. -/
abbrev bare (cs : List Pattern) : List Pattern := cs.rdropWhile Pattern.isRecursive

theorem splits_of_bare (h : Splits o (bare cs) names) : Splits o cs names := by
  induction cs generalizing names with
  | nil => exact h
  | cons c cs ih =>
    rw [bare, rdropWhile_cons] at h
    split at h
    · rename_i hend
      simp only [Bool.and_eq_true, List.isEmpty_iff] at hend
      cases h
      refine .leave hend.1 (ih ?_)
      rw [bare, hend.2]
      exact .nil
    · cases hr : c.isRecursive with
      | false =>
        obtain ⟨n, more, rfl, hcov, hs⟩ := (splits_plain_iff hr).1 h
        exact .plain hr hcov (ih hs)
      | true =>
        obtain ⟨front, back, rfl, hu, hs⟩ := (splits_recursive_iff hr).1 h
        exact (splits_recursive_iff hr).2 ⟨front, back, rfl, hu, ih hs⟩

/-- Components that share the names of a way cover its joined text, or do so without
the recursive ones at their end, which have taken no name then. -/
theorem covers_of_splits (h : ∀ c ∈ cs, Plain c.source) (hnames : names ≠ [])
    (hsep : o.literalSeparator = true) (hn : ∀ n ∈ names, '/' ∉ n) (hs : Splits o cs names) :
    Token.Covers o (woven cs) true (joinNames names) ∨
      bare cs ≠ [] ∧ Token.Covers o (woven (bare cs)) true (joinNames names) := by
  induction cs generalizing names with
  | nil =>
    cases hs
    exact absurd rfl hnames
  | cons c cs ih =>
    obtain ⟨hc, hcs⟩ := List.forall_mem_cons.1 h
    have hrest : Splits o cs [] → bare cs = [] := fun hs =>
      List.rdropWhile_eq_nil_iff.2 (Splits.nil_iff.1 hs)
    have hbare : bare cs ≠ [] → bare (c :: cs) = c :: bare cs := fun h => by
      simp [bare, rdropWhile_cons, h]
    cases hr : c.isRecursive with
    | false =>
      obtain ⟨n, more, rfl, hcov, hs'⟩ := (splits_plain_iff hr).1 hs
      by_cases hm : more = []
      · subst hm
        have hone : bare (c :: cs) = [c] := by simp [bare, rdropWhile_cons, hr, hrest hs']
        rw [hone]
        refine .inr ⟨by simp, ?_⟩
        simpa [joinNames, woven, List.intercalate_singleton] using
          (covers_component_iff hc.not_mem hr).1 hcov
      · have hmn := (List.forall_mem_cons.1 hn).2
        have hne : cs ≠ [] := by
          intro hq
          subst hq
          cases hs'
          exact hm rfl
        have hstep : ∀ {ds : List Pattern}, ds ≠ [] →
            Token.Covers o (woven ds) true (joinNames more) →
            Token.Covers o (woven (c :: ds)) true (joinNames (n :: more)) := by
          intro ds hds hcov'
          rw [woven_plain hds hr]
          exact (covers_plain_iff hsep hc.not_mem hr (by simp) hn).2 ⟨n, more, rfl, hm, hcov, hcov'⟩
        rcases ih hcs hm hmn hs' with hcov' | ⟨hb, hcov'⟩
        · exact .inl (hstep hne hcov')
        · rw [hbare hb]
          exact .inr ⟨by simp, hstep hb hcov'⟩
    | true =>
      obtain ⟨front, back, rfl, hu, hs'⟩ := (splits_recursive_iff hr).1 hs
      rw [woven_recursive hc.not_mem hr]
      by_cases hb : back = []
      · subst hb
        rw [List.append_nil] at hn ⊢
        refine .inl ((covers_recursive_iff ?_ hn).2 (.inr ⟨hu, ?_⟩))
        · simpa using hnames
        · exact covers_woven_empty hcs (Splits.nil_iff.1 hs')
      · have hbn : ∀ n ∈ back, '/' ∉ n := fun n h => hn n (List.mem_append_right _ h)
        have hstep : ∀ {ds : List Pattern}, Token.Covers o (woven ds) true (joinNames back) →
            Token.Covers o (.deep :: woven ds) true (joinNames (front ++ back)) :=
          fun hcov' => (covers_recursive_iff hnames hn).2 (.inl ⟨front, back, rfl, hb, hu, hcov'⟩)
        rcases ih hcs hb hbn hs' with hcov' | ⟨hbs, hcov'⟩
        · exact .inl (hstep hcov')
        · rw [hbare hbs, woven_recursive hc.not_mem hr]
          exact .inr ⟨by simp, hstep hcov'⟩

end End

/-- A source without the `/**` at its end, however often it stands there, unless the
source is nothing else. -/
def Pattern.withoutDeepEnd (source : Text) : Text :=
  match (source.splitOn '/').rdropWhile (· = ['*', '*']) with
  | [] => source
  | pieces => joinNames pieces

/-- Components put together are a pattern, and it covers what their tokens do. -/
theorem exists_compile (o : Options) {cs : List Pattern} (hne : cs ≠ [])
    (h : ∀ c ∈ cs, '/' ∉ c.source) :
    ∃ p, Pattern.compile (joinNames (cs.map Pattern.source)) = .ok p ∧
      ∀ text, p.covers o text = true ↔ Token.Covers o (Pattern.woven cs) true text := by
  obtain ⟨p, hp, ht⟩ := Pattern.compile_intercalate hne h
  exact ⟨p, hp, fun text => Pattern.covers_iff_of_tokens ht⟩

/-- The source without its end is put together from the components without theirs. -/
theorem withoutDeepEnd_eq {source : Text} {cs : List Pattern}
    (hs : cs.map Pattern.source = source.splitOn '/') (h : ∀ c ∈ cs, '/' ∉ c.source) :
    Pattern.withoutDeepEnd source =
      if bare cs = [] then source else joinNames ((bare cs).map Pattern.source) := by
  have hbare : (source.splitOn '/').rdropWhile (· = ['*', '*']) = (bare cs).map Pattern.source := by
    rw [← hs]
    refine rdropWhile_map fun c hc => ?_
    rw [Bool.eq_iff_iff, decide_eq_true_iff, Pattern.recursive_iff c (h c hc)]
  rw [Pattern.withoutDeepEnd, hbare]
  cases bare cs with
  | nil => rfl
  | cons c cs => rfl

/-- **Taken name by name, a way is one of a pattern exactly if the pattern, or what is
left of it without `/**` at its end, covers the joined text of the way.** -/
theorem isFinal_iff_covers {o : Options} {source : Text} {whole : Plan}
    (h : Plan.anchored o source = .ok whole) (hsep : o.literalSeparator = true)
    (hpieces : ∀ piece ∈ source.splitOn '/', piece ≠ [] ∧ piece ≠ ['.'])
    {names : List Text} (hne : names ≠ []) (hn : ∀ n ∈ names, '/' ∉ n) :
    ∃ p q, Pattern.compile source = .ok p ∧
      Pattern.compile (Pattern.withoutDeepEnd source) = .ok q ∧
      ((Live.after o whole.components names).isFinal whole.components = true ↔
        p.covers o (joinNames names) = true ∨ q.covers o (joinNames names) = true) := by
  obtain ⟨-, hsource, -⟩ := Plan.anchored_eq_ok.1 h
  generalize hcs : whole.components = cs at *
  have hall : Path.namesOf source = source.splitOn '/' :=
    List.filter_eq_self.2 fun piece hm => by simpa using hpieces piece hm
  have hplain : ∀ c ∈ cs, Plain c.source := fun c hc =>
    Path.plain_of_mem_namesOf (hsource ▸ List.mem_map_of_mem hc)
  have hslash : ∀ c ∈ cs, '/' ∉ c.source := fun c hc => (hplain c hc).not_mem
  rw [hall] at hsource
  have hcne : cs ≠ [] := by
    intro hnil
    rw [hnil] at hsource
    exact List.splitOn_ne_nil '/' source hsource.symm
  obtain ⟨p, hp, hpcov⟩ := exists_compile o hcne hslash
  rw [hsource, joinNames, List.intercalate_splitOn] at hp
  rw [Live.isFinal_after_iff, withoutDeepEnd_eq hsource hslash]
  by_cases hb : bare cs = []
  · refine ⟨p, p, hp, by rw [if_pos hb, hp], ?_⟩
    rw [or_self, hpcov]
    refine ⟨fun hs => ?_, splits_of_covers hsep hcne hplain hne hn⟩
    exact (covers_of_splits hplain hne hsep hn hs).resolve_right fun h => h.1 hb
  · have hsub : ∀ c ∈ bare cs, Plain c.source := fun c hc =>
      hplain c ((List.rdropWhile_prefix _ _).subset hc)
    obtain ⟨q, hq, hqcov⟩ := exists_compile o hb fun c hc => (hsub c hc).not_mem
    refine ⟨p, q, hp, by rw [if_neg hb, hq], ?_⟩
    rw [hpcov, hqcov]
    constructor
    · exact fun hs => (covers_of_splits hplain hne hsep hn hs).imp_right And.right
    · intro hw
      rcases hw with hcov | hcov
      · exact splits_of_covers hsep hcne hplain hne hn hcov
      · exact splits_of_bare (splits_of_covers hsep hb hsub hne hn hcov)

/-- `a/**` leads to the folder `a` itself, whose text it does not cover: `a` does. -/
theorem isFinal_iff_covers_folder :
    ∃ whole p q, Plan.anchored { literalSeparator := true } "a/**".toList = .ok whole ∧
      Pattern.compile "a/**".toList = .ok p ∧ Pattern.compile "a".toList = .ok q ∧
      ((Live.after { literalSeparator := true } whole.components ["a".toList]).isFinal
          whole.components = true ↔
        p.covers { literalSeparator := true } "a".toList = true ∨
          q.covers { literalSeparator := true } "a".toList = true) := by
  have ha : Token.ofSource "a".toList = .ok [.char 'a'] := by cbv
  have hd : Token.ofSource "**".toList = .ok [.deep] := by cbv
  have hw : Token.ofSource "a/**".toList = .ok [.char 'a', .char '/', .deep] := by cbv
  let whole : Plan :=
    { source := "a/**".toList
      root := ⟨.here, []⟩
      components := [⟨_, _, ha⟩, ⟨_, _, hd⟩]
      foldersOnly := false
      options := { literalSeparator := true } }
  have h : Plan.anchored { literalSeparator := true } "a/**".toList = .ok whole :=
    Plan.anchored_eq_ok.2 ⟨⟨_, Pattern.compile_eq_ok hw⟩, rfl, rfl⟩
  have hne : ["a".toList] ≠ [] := List.cons_ne_nil _ _
  obtain ⟨p, q, hp, hq, hiff⟩ := isFinal_iff_covers h rfl (by decide) hne (by decide)
  exact ⟨whole, p, q, h, hp, hq, hiff⟩
end PathGlob

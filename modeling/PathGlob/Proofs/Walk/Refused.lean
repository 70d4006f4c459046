import PathGlob.Proofs.Pattern.Cutting
import PathGlob.Proofs.Walk.Planned
import PathGlob.Session

/-! Which sources have no plan.

A source is compiled as a whole before its names are compiled one by one. An error of the
whole is that of the plan. A source that is a pattern has a plan unless a set of it holds a
separator: the name that the first such set starts in has no end of the set, so the error is
placed in that name, where the set opens (`refused_iff`). -/
namespace PathGlob

namespace Pattern
variable {s : Text} {e : PatternError}

theorem compile_eq_error : compile s = .error e ↔ Item.readAll none 0 s = .error e := by
  rw [← Token.ofSource_eq_error]
  unfold compile
  split
  · rename_i he
    rw [he]
    exact ⟨fun h => congrArg _ (Except.error.inj h), fun h => congrArg _ (Except.error.inj h)⟩
  · rename_i hs
    refine ⟨nofun, fun h => ?_⟩
    rw [hs] at h
    cases h

/-- The first source that is no pattern gives the error. -/
theorem mapM_compile_eq_error {goods others : List Text} {bad : Text}
    (hg : ∀ good ∈ goods, ∃ c, compile good = .ok c) (hb : compile bad = .error e) :
    (goods ++ bad :: others).mapM compile = .error e := by
  induction goods with
  | nil =>
    rw [List.nil_append, List.mapM_cons, hb]
    rfl
  | cons good goods ih =>
    obtain ⟨⟨c, hc⟩, hgoods⟩ := List.forall_mem_cons.1 hg
    rw [List.cons_append, List.mapM_cons, hc]
    show (do let cs ← (goods ++ bad :: others).mapM compile; pure (c :: cs)) = _
    rw [ih hgoods]
    rfl

end Pattern

namespace Plan
variable {o : Options} {source : Text} {e : PatternError} {items : List Item}

/-- The error of a source as a whole is that of its plan. -/
theorem ofSource_of_compile (h : Pattern.compile source = .error e) :
    ofSource o source = .error e := by
  rw [ofSource, map_eq_error, anchored, h]

/-- A name that is no pattern has its error without regard to the names behind it. -/
theorem ofSource_of_pieces {goods others : List Text} {bad : Text} {whole : Pattern}
    (hw : Pattern.compile source = .ok whole)
    (hp : List.splitOn '/' source = goods ++ bad :: others)
    (hg : ∀ good ∈ goods, ∃ own, Item.Row none good own)
    (hb : Item.readAll none 0 bad = .error e) : ofSource o source = .error e := by
  have hkept : bad ≠ [] ∧ bad ≠ ['.'] := by
    refine ⟨fun hq => ?_, fun hq => ?_⟩
    · rw [hq, Item.readAll_nil] at hb
      cases hb
    · have hdot : Item.Row none ['.'] [.char '.'] :=
        .cons (.char (by decide) (by decide) (by decide)) .nil
      rw [hq, Item.readAll_eq_ok.2 hdot] at hb
      cases hb
  rw [ofSource, map_eq_error, anchored, hw]
  show Except.map _ _ = _
  rw [map_eq_error, Path.namesOf, hp, List.filter_append, List.filter_cons_of_pos (by simpa using hkept)]
  refine Pattern.mapM_compile_eq_error (fun good hgood => ?_) (Pattern.compile_eq_error.2 hb)
  obtain ⟨own, hrow⟩ := hg good (List.mem_of_mem_filter hgood)
  obtain ⟨c, hc, -⟩ := Pattern.compile_of_row hrow
  exact ⟨c, hc⟩

/-- A source has a plan if each of its pieces is a row of items, and its components are those. -/
theorem exists_anchored {whole : Pattern} (hw : Pattern.compile source = .ok whole)
    (hp : ∀ piece ∈ List.splitOn '/' source, ∃ own, Item.Row none piece own) :
    ∃ p, anchored o source = .ok p ∧ ofSource o source = .ok p.joined ∧
      p.components.map Pattern.source = Path.namesOf source := by
  have hok : ∀ {s items}, Item.Row none s items → (Token.ofSource s).isOk = true := fun h => by
    rw [Token.ofSource_eq_ok.2 ⟨_, h, rfl⟩]
    rfl
  have hwhole : (Token.ofSource source).isOk = true := by
    obtain ⟨items, hrow, -⟩ := whole.exists_row
    exact hok (Pattern.source_of_compile hw ▸ hrow)
  have hnames : ((Path.namesOf source).all fun n => (Token.ofSource n).isOk) = true := by
    refine List.all_eq_true.2 fun n hn => ?_
    obtain ⟨own, hrow⟩ := hp n (List.mem_of_mem_filter hn)
    exact hok hrow
  obtain ⟨_, h⟩ := exists_ofSource (o := o) hwhole hnames
  obtain ⟨p, ha, rfl⟩ := ofSource_eq_ok.1 h
  exact ⟨p, ha, h, (anchored_eq_ok.1 ha).2.1⟩

/-- The pieces of a source that has a plan are rows of items. -/
theorem row_of_piece {p : Plan} (h : anchored o source = .ok p) :
    ∀ piece ∈ List.splitOn '/' source, ∃ own, Item.Row none piece own := by
  intro piece hpiece
  by_cases hname : piece ∈ Path.namesOf source
  · rw [← (anchored_eq_ok.1 h).2.1] at hname
    obtain ⟨c, -, rfl⟩ := List.mem_map.1 hname
    obtain ⟨own, hrow, -⟩ := c.exists_row
    exact ⟨own, hrow⟩
  · have hskipped : piece = [] ∨ piece = ['.'] := by
      by_contra hnot
      exact hname (List.mem_filter.2 ⟨hpiece, by simpa using hnot⟩)
    rcases hskipped with rfl | rfl
    · exact ⟨[], .nil⟩
    · exact ⟨_, .cons (.char (by decide) (by decide) (by decide)) .nil⟩

/-- The pieces of a source that has a plan are the sources of patterns. -/
theorem exists_of_pieces {p : Plan} (h : ofSource o source = .ok p) :
    ∃ cs : List Pattern, cs.map Pattern.source = List.splitOn '/' source := by
  obtain ⟨q, hq, -⟩ := ofSource_eq_ok.1 h
  refine Pattern.exists_map_source fun piece hpiece => ?_
  obtain ⟨own, hrow⟩ := row_of_piece hq piece hpiece
  obtain ⟨c, hc, -⟩ := Pattern.compile_of_row hrow
  exact ⟨c, hc⟩

/-- A source has a plan if its pieces are the sources of patterns. The components are among them. -/
theorem ofSource_pieces {cs : List Pattern} (hcs : cs.map Pattern.source = List.splitOn '/' source) :
    ofSource o source = .ok (joined
      { source
        root := ⟨if source.head? = some '/' then .root else .here, []⟩
        components := cs.filter fun c => c.source ≠ [] && c.source ≠ ['.']
        foldersOnly := !(cs.filter fun c => c.source ≠ [] && c.source ≠ ['.']).isEmpty &&
          source.getLast? == some '/'
        options := o }) := by
  obtain ⟨whole, hwhole, -⟩ := Pattern.compile_pieces hcs
  have hsource : whole.source = source := Pattern.source_of_compile hwhole
  refine ofSource_of_components _ (hsource ▸ whole.ofSource_source) ?_
  rw [Path.namesOf, ← hcs, List.filter_map]
  rfl

end Plan

/-- **A source has a plan exactly if it is a pattern and no set of it holds a separator.** An
error of the whole comes first, as it is. Else the first set that holds a separator is the error,
placed where it opens in its own component, and without such sets each component is a pattern,
recursive only as `**`. Whatever comes of it, nothing is asked for. -/
theorem refused_iff (o : Options) (source : Text) :
    (∀ e, Pattern.compile source = .error e → Plan.ofSource o source = .error e) ∧
    (∀ whole, Pattern.compile source = .ok whole → ∃ items, Item.Row none source items ∧
      Token.merged (items.map Item.token) = whole.tokens ∧
      ((∃ e, Plan.ofSource o source = .error e) ↔ ∃ item ∈ items, item.crosses = true) ∧
      (∀ front item back, items = front ++ item :: back →
        (∀ other ∈ front, other.crosses = false) → item.crosses = true →
        Plan.ofSource o source = .error ⟨.openSet, Text.column (front.flatMap Item.text)⟩) ∧
      ((∀ item ∈ items, item.crosses = false) →
        ∃ p, Plan.anchored o source = .ok p ∧ Plan.ofSource o source = .ok p.joined ∧
          p.components.map Pattern.source = Path.namesOf source ∧
          ∀ c ∈ p.components, (c.isRecursive = true ↔ c.source = ['*', '*']))) ∧
    ∀ (s : Session) (label : Text), (s.step (.glob label source o)).2.1 = [] := by
  refine ⟨fun e => Plan.ofSource_of_compile, fun whole hw => ?_, fun s label => ?_⟩
  · obtain ⟨items, hrow, htokens⟩ := whole.exists_row
    rw [Pattern.source_of_compile hw] at hrow
    have hcrossing : (∃ item ∈ items, item.crosses = true) → Plan.ofSource o source =
        .error ⟨.openSet, Text.column ((items.takeWhile fun item => !item.crosses).flatMap Item.text)⟩ := by
      intro hc
      obtain ⟨goods, bad, others, hp, hg, hb⟩ := hrow.cut.pieces_of_crossing rfl hc
      exact Plan.ofSource_of_pieces hw hp hg hb
    have hplain : (∀ item ∈ items, item.crosses = false) →
        ∃ p, Plan.anchored o source = .ok p ∧ Plan.ofSource o source = .ok p.joined ∧
          p.components.map Pattern.source = Path.namesOf source :=
      fun hc => Plan.exists_anchored hw (hrow.cut.pieces rfl hc)
    refine ⟨items, hrow, htokens, ⟨fun h => ?_, fun hc => ⟨_, hcrossing hc⟩⟩, ?_, fun hc => ?_⟩
    · by_contra hnone
      obtain ⟨e, he⟩ := h
      obtain ⟨p, -, hp, -⟩ := hplain fun item hi => by simpa using fun hc => hnone ⟨item, hi, hc⟩
      rw [hp] at he
      cases he
    · intro front item back hitems hfront hcross
      have hmem : ∃ item ∈ items, item.crosses = true := ⟨item, by simp [hitems], hcross⟩
      have htake : (items.takeWhile fun item => !item.crosses) = front := by
        rw [hitems, List.takeWhile_append_of_pos fun other hi => by rw [hfront other hi]; rfl,
          List.takeWhile_cons_of_neg (by simp [hcross]), List.append_nil]
      rw [hcrossing hmem, htake]
    · obtain ⟨p, ha, hp, hcs⟩ := hplain hc
      refine ⟨p, ha, hp, hcs, fun c hmem => c.recursive_iff ?_⟩
      exact (Path.plain_of_mem_namesOf (hcs ▸ List.mem_map_of_mem hmem)).not_mem
  · rw [Session.step]
    cases Plan.ofSource o source <;> rfl

/-- A set with a separator in the second component, and a plain one before it. -/
theorem refused_iff_second :
    (∃ whole, Pattern.compile "[d]/x[a/b]".toList = .ok whole) ∧
      Plan.ofSource {} "[d]/x[a/b]".toList = .error ⟨.openSet, 1⟩ := by
  have hread : Item.readAll none 0 "[d]/x[a/b]".toList = .ok
      [.bracket false ['d'], .char '/', .char 'x', .bracket false "a/b".toList] := by cbv
  have hrow := Item.readAll_eq_ok.1 hread
  obtain ⟨whole, hw, -⟩ := Pattern.compile_of_row hrow
  obtain ⟨items, hitems, -, -, hset, -⟩ := (refused_iff {} "[d]/x[a/b]".toList).2.1 whole hw
  obtain rfl := hrow.unique hitems
  exact ⟨⟨whole, hw⟩, hset [.bracket false ['d'], .char '/', .char 'x'] _ [] rfl (by decide) rfl⟩

end PathGlob

import PathGlob.Proofs.Pattern.Shape

/-! A source read component by component.

A component holds no separator. If each component is a pattern, then so is the source
they are put together to, and its tokens are theirs in order, with the separators in
between (`compile_intercalate`). A component that is `**` takes the separator behind it
for itself, so there is none behind its token. -/
namespace PathGlob

namespace Item
variable {before other : Option Char} {s rest r : Text} {item : Item} {items more : List Item}

theorem Reads.not_mem (h : Reads before s item rest) (hs : '/' ∉ s) :
    '/' ∉ item.text ∧ '/' ∉ rest := by
  rw [← h.text_append, List.mem_append, not_or] at hs
  exact hs

/-- An item other than `**` does not depend on what stands around it. -/
theorem Reads.extend {tail : Text} (h : Reads before s item rest) (hd : item.token ≠ .deep)
    (ht : tail.head? ≠ some '*') : Reads other (s ++ tail) item (rest ++ tail) := by
  cases h with
  | char h₁ h₂ h₃ => exact .char h₁ h₂ h₃
  | one => exact .one
  | run h =>
    apply Reads.run
    cases rest with
    | nil => exact ht
    | cons d rest => exact h
  | last => exact absurd rfl hd
  | deep => exact absurd rfl hd
  | bracket hx hb =>
    simp only [List.cons_append, List.append_assoc]
    exact .bracket hx hb
  | negated hb =>
    simp only [List.cons_append, List.append_assoc]
    exact .negated hb

theorem Row.extend {tail : Text} (h : Row before s items)
    (hd : ∀ item ∈ items, item.token ≠ .deep) (ht : tail.head? ≠ some '*')
    (hr : ∀ b, Row b tail more) : Row other (s ++ tail) (items ++ more) := by
  induction h generalizing other with
  | nil => exact hr other
  | cons hi _ ih =>
    obtain ⟨hhead, htail⟩ := List.forall_mem_cons.1 hd
    exact .cons (hi.extend hhead ht) (ih htail)

theorem Row.separator (h : Row (some '/') r more) (b : Option Char) :
    Row b ('/' :: r) (char '/' :: more) :=
  .cons (.char (by decide) (by decide) (by decide)) h

theorem Row.not_separator (h : Row before s items) (hs : '/' ∉ s) :
    ∀ item ∈ items, item.token ≠ .char '/' := by
  induction h with
  | nil => simp
  | @cons _ _ rest item more hi _ ih =>
    obtain ⟨ht, hr⟩ := hi.not_mem hs
    refine List.forall_mem_cons.2 ⟨fun he => ht ?_, ih hr⟩
    cases item with
    | char c =>
      cases he
      exact List.mem_cons_self ..
    | _ => cases he

/-- No name starts behind an item without a separator. -/
theorem last_of_not_mem (h : '/' ∉ item.text) : item.text.getLast?.all (· = '/') = false := by
  rw [List.getLast?_eq_some_getLast item.text_ne_nil]
  simp only [Option.all_some, decide_eq_false_iff_not]
  exact fun he => h (he ▸ List.getLast_mem item.text_ne_nil)

theorem not_deep_of_inner (h : Row before s items) (hs : '/' ∉ s)
    (hb : before.all (· = '/') = false) : ∀ item ∈ items, item.token ≠ .deep := by
  induction h with
  | nil => simp
  | @cons before s rest item more hi _ ih =>
    obtain ⟨ht, hr⟩ := hi.not_mem hs
    refine List.forall_mem_cons.2 ⟨fun hd => ?_, ih hr (last_of_not_mem ht)⟩
    rw [Token.starts_of_reads hi hd] at hb
    cases hb

/-- Within a component `**` stands alone or not at all. -/
theorem deep_or_plain (h : Row before s items) (hs : '/' ∉ s) :
    s = ['*', '*'] ∧ items = [deep false] ∨ ∀ item ∈ items, item.token ≠ .deep := by
  cases h with
  | nil => exact .inr (by simp)
  | @cons _ _ rest item more hi hm =>
    by_cases hd : item.token = .deep
    · cases hi with
      | last =>
        cases hm with
        | nil => exact .inl ⟨rfl, rfl⟩
        | cons h _ => cases h
      | deep => simp at hs
      | _ => cases hd
    · obtain ⟨ht, hr⟩ := hi.not_mem hs
      exact .inr (List.forall_mem_cons.2 ⟨hd, not_deep_of_inner hm hr (last_of_not_mem ht)⟩)

end Item

namespace Token

theorem merged_eq_self {ts : List Token} (h : ∀ t ∈ ts, t ≠ deep) : merged ts = ts := by
  induction ts with
  | nil => rfl
  | cons t ts ih =>
    obtain ⟨ht, hts⟩ := List.forall_mem_cons.1 h
    rw [merged_cons fun he => absurd he ht, ih hts]

theorem merged_congr {ts us : List Token} (h : merged ts = merged us) (t : Token) :
    merged (t :: ts) = merged (t :: us) := by
  have hhead : ts.head? = us.head? := by rw [← head?_merged, h, head?_merged]
  by_cases hd : t = deep ∧ us.head? = some deep
  · obtain ⟨rfl, hus⟩ := hd
    rw [merged_cons_of_deep (hhead.trans hus), merged_cons_of_deep hus, h]
  · have hus : t = deep → us.head? ≠ some deep := fun ht hu => hd ⟨ht, hu⟩
    rw [merged_cons hus, merged_cons (hhead ▸ hus), h]

theorem merged_append_congr {ts us : List Token} (h : merged ts = merged us) (front : List Token) :
    merged (front ++ ts) = merged (front ++ us) := by
  induction front with
  | nil => exact h
  | cons t front ih => exact merged_congr ih t

theorem ofSource_eq_ok {source : Text} {ts : List Token} :
    ofSource source = .ok ts ↔
      ∃ items, Item.Row none source items ∧ merged (items.map Item.token) = ts := by
  rw [ofSource, map_eq_ok]
  simp only [Item.readAll_eq_ok]

end Token

namespace Pattern

theorem exists_row (p : Pattern) :
    ∃ items, Item.Row none p.source items ∧ Token.merged (items.map Item.token) = p.tokens :=
  Token.ofSource_eq_ok.1 p.ofSource_source

theorem compile_of_row {source : Text} {items : List Item} (h : Item.Row none source items) :
    ∃ p, compile source = .ok p ∧ p.tokens = Token.merged (items.map Item.token) := by
  have hs : Token.ofSource source = .ok (Token.merged (items.map Item.token)) :=
    Token.ofSource_eq_ok.2 ⟨items, h, rfl⟩
  exact ⟨⟨source, _, hs⟩, compile_eq_ok hs, rfl⟩

/-- A component is `**` itself, or its tokens are those of its items, none of them `**`. -/
theorem component_cases (p : Pattern) (h : '/' ∉ p.source) :
    p.isRecursive = true ∧ p.source = ['*', '*'] ∧ p.tokens = [.deep] ∨
      p.isRecursive = false ∧ p.source ≠ ['*', '*'] ∧ ∃ items, Item.Row none p.source items ∧
        p.tokens = items.map Item.token ∧ ∀ item ∈ items, item.token ≠ .deep := by
  obtain ⟨items, hr, hm⟩ := p.exists_row
  rcases Item.deep_or_plain hr h with ⟨hs, rfl⟩ | hd
  · have ht : p.tokens = [.deep] := hm.symm
    exact .inl ⟨by simp [isRecursive, ht], hs, ht⟩
  · have hd' : ∀ t ∈ items.map Item.token, t ≠ .deep := by simpa using hd
    rw [Token.merged_eq_self hd'] at hm
    refine .inr ⟨?_, fun hs => ?_, items, hr, hm.symm, hd⟩
    · rw [isRecursive, ← hm, List.any_eq_false]
      simpa using hd
    · rw [hs] at hr
      cases hr with
      | cons hi _ =>
        cases hi with
        | char _ h _ => exact absurd rfl h
        | run h => exact absurd rfl h
        | last => exact absurd rfl (hd _ (List.mem_cons_self ..))

theorem recursive_iff (p : Pattern) (h : '/' ∉ p.source) :
    p.isRecursive = true ↔ p.source = ['*', '*'] := by
  rcases p.component_cases h with ⟨hr, hs, -⟩ | ⟨hr, hs, -⟩ <;> simp [hr, hs]

theorem tokens_of_recursive {p : Pattern} (h : '/' ∉ p.source) (hr : p.isRecursive = true) :
    p.tokens = [.deep] := by
  rcases p.component_cases h with ⟨-, -, ht⟩ | ⟨hp, -⟩
  · exact ht
  · rw [hp] at hr
    cases hr

/-- A plain component is about one name: its tokens neither are nor take a separator. -/
theorem tokens_of_plain {p : Pattern} (h : '/' ∉ p.source) (hr : p.isRecursive = false) :
    ∀ t ∈ p.tokens, t ≠ .deep ∧ t ≠ .char '/' := by
  rcases p.component_cases h with ⟨hd, -⟩ | ⟨-, -, items, hrow, ht, hd⟩
  · rw [hr] at hd
    cases hd
  · rw [ht]
    intro t hm
    obtain ⟨item, hi, rfl⟩ := List.mem_map.1 hm
    exact ⟨hd item hi, hrow.not_separator h item hi⟩

theorem tokens_ne_nil {p : Pattern} (h : p.source ≠ []) : p.tokens ≠ [] := by
  obtain ⟨items, hr, ht⟩ := p.exists_row
  intro hn
  rw [← ht, ← List.head?_eq_none_iff, Token.head?_merged, List.head?_eq_none_iff,
    List.map_eq_nil_iff] at hn
  rw [hn] at hr
  generalize p.source = source at h hr
  cases hr
  exact h rfl

/-- The tokens of components in order, with the separators between them. -/
def woven : List Pattern → List Token
  | [] => []
  | [c] => c.tokens
  | c :: d :: cs =>
    if c.isRecursive then .deep :: woven (d :: cs) else c.tokens ++ .char '/' :: woven (d :: cs)

theorem woven_cons {c : Pattern} {cs : List Pattern} (hne : cs ≠ []) : woven (c :: cs) =
    if c.isRecursive then .deep :: woven cs else c.tokens ++ .char '/' :: woven cs := by
  cases cs with
  | nil => exact absurd rfl hne
  | cons d cs => rfl

theorem woven_plain {c : Pattern} {cs : List Pattern} (hne : cs ≠ []) (hr : c.isRecursive = false) :
    woven (c :: cs) = c.tokens ++ .char '/' :: woven cs := by
  rw [woven_cons hne, hr]
  rfl

theorem woven_recursive {c : Pattern} {cs : List Pattern} (hc : '/' ∉ c.source)
    (hr : c.isRecursive = true) : woven (c :: cs) = .deep :: woven cs := by
  cases cs with
  | nil => exact tokens_of_recursive hc hr
  | cons d cs => exact if_pos hr

theorem exists_row_woven {cs : List Pattern} (hne : cs ≠ []) (h : ∀ c ∈ cs, '/' ∉ c.source)
    (before : Option Char) (hb : before.all (· = '/') = true) :
    ∃ items, Item.Row before (['/'].intercalate (cs.map source)) items ∧
      items.map Item.token = woven cs := by
  induction cs generalizing before with
  | nil => exact absurd rfl hne
  | cons c cs ih =>
    obtain ⟨hc, hcs⟩ := List.forall_mem_cons.1 h
    cases cs with
    | nil =>
      simp only [List.map_cons, List.map_nil, List.intercalate_singleton, woven]
      rcases c.component_cases hc with ⟨-, hs, ht⟩ | ⟨-, -, items, hr, ht, hd⟩
      · rw [hs, ht]
        exact ⟨[.deep false], .cons (.last hb) .nil, rfl⟩
      · rw [← List.append_nil c.source, ht]
        exact ⟨items ++ [], hr.extend hd (by simp) fun _ => .nil, by simp⟩
    | cons d cs =>
      have hcat : ['/'].intercalate ((c :: d :: cs).map source) =
          c.source ++ '/' :: ['/'].intercalate ((d :: cs).map source) := by
        simp [List.intercalate_cons_cons]
      obtain ⟨more, hm, hmt⟩ := ih (by simp) hcs (some '/') rfl
      rw [hcat, woven, ← hmt]
      rcases c.component_cases hc with ⟨hr, hs, -⟩ | ⟨hr, -, items, hi, ht, hd⟩
      · rw [hs, if_pos hr]
        exact ⟨.deep true :: more, .cons (.deep hb) hm, rfl⟩
      · rw [hr, ht]
        exact ⟨items ++ .char '/' :: more, hi.extend hd (by simp) hm.separator, by simp [Item.token]⟩

/-- **Components that are patterns make up a pattern**, with their tokens in order. -/
theorem compile_intercalate {cs : List Pattern} (hne : cs ≠ []) (h : ∀ c ∈ cs, '/' ∉ c.source) :
    ∃ p, compile (['/'].intercalate (cs.map source)) = .ok p ∧ p.tokens = Token.merged (woven cs) := by
  obtain ⟨items, hr, ht⟩ := exists_row_woven hne h none rfl
  rw [← ht]
  exact compile_of_row hr

/-- A source whose pieces are the sources of patterns is put together from them. -/
theorem compile_pieces {cs : List Pattern} {s : Text} (hcs : cs.map source = List.splitOn '/' s) :
    ∃ p, compile s = .ok p ∧ p.tokens = Token.merged (woven cs) := by
  have hne : cs ≠ [] := by
    rintro rfl
    exact List.splitOn_ne_nil '/' s hcs.symm
  have hsep : ∀ c ∈ cs, '/' ∉ c.source := fun c hc =>
    Text.not_mem_of_mem_splitOn '/' s c.source (hcs ▸ List.mem_map_of_mem hc)
  have hjoined : ['/'].intercalate (List.splitOn '/' s) = s := List.intercalate_splitOn '/'
  rw [← hjoined, ← hcs]
  exact compile_intercalate hne hsep

end Pattern
end PathGlob
